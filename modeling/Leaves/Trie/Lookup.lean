import Leaves.Trie.Pages

/-!
The value a trie has for a key, from the nodes on the way to it: a node passes a key on to the
branch of its next byte, a path passes on what it leads to.
-/

namespace Leaves
namespace Tree

open OrdMap (lookup)

def get (t : Tree) (k : Key) : Option Value := lookup t.entries k

/-- The value below the branches of a node. -/
def branchGet (arr : List (Branch × Tree)) (k : Key) : Option Value := lookup (branchEntries arr) k

theorem get_eq_some_iff {t : Tree} (hwf : t.WF) {k : Key} {v : Value} :
    t.get k = some v ↔ (k, v) ∈ t.entries :=
  OrdMap.lookup_eq_some_iff (ascending_entries hwf)

theorem mem_of_get {t : Tree} {k : Key} {v : Value} (h : t.get k = some v) : (k, v) ∈ t.entries :=
  OrdMap.mem_of_lookup h

section Behind

variable {p k : Key} {es : List (Key × Value)}

theorem lookup_behind_append : lookup (behind p es) (p ++ k) = lookup es k := by
  induction es with
  | nil => rfl
  | cons e es ih =>
    rw [behind] at ih ⊢
    rw [List.map_cons, OrdMap.lookup_cons, OrdMap.lookup_cons, ih]
    by_cases h : e.1 = k <;> simp [h]

end Behind

section Node

variable {t : Tree} {a : Addr} {c k : Key} {arr : List (Branch × Tree)}

theorem get_leaf (a : Addr) (c : Key) (v : Value) (k : Key) :
    (leaf a c v).get k = if c = k then some v else none := by
  by_cases h : c = k <;> simp [get, lookup, h]

theorem get_node_append : (node a c arr).get (c ++ k) = branchGet arr k := by
  rw [get, entries_node]
  exact lookup_behind_append

theorem get_of_no_label (h : ¬ t.label <+: k) : t.get k = none := by
  rw [get, OrdMap.lookup_eq_none_iff]
  rintro e he rfl
  exact h (prefix_of_mem_entries (v := e.2) he)

/-- Two trees with the same entries below the same string. -/
theorem get_congr {t' : Tree} (h : t'.entries = t.entries) (k : Key) : t'.get k = t.get k := by
  rw [get, get, h]

end Node

/-- A tree has no keys with another first byte than its branch. -/
theorem get_of_head_ne {x : Branch × Tree} (hx : Hangs x) {k : Key} (hne : k.head? ≠ x.1) :
    x.2.get k = none := by
  rw [get, OrdMap.lookup_eq_none_iff]
  rintro e he rfl
  obtain ⟨b, t⟩ := x
  cases b with
  | none =>
    obtain ⟨a, v, rfl⟩ := entries_of_hangs_none hx
    rw [entries_leaf, List.mem_singleton] at he
    subst he
    exact hne rfl
  | some b => exact hne (head_of_mem_entries (v := e.2) hx.1 he)

section Branch

variable {arr l r : List (Branch × Tree)} {k : Key}

@[simp]
theorem branchGet_nil (k : Key) : branchGet [] k = none := rfl

theorem branchGet_cons (x : Branch × Tree) (arr : List (Branch × Tree)) (k : Key) :
    branchGet (x :: arr) k = (x.2.get k).or (branchGet arr k) := by
  rw [branchGet, branchEntries_cons, OrdMap.lookup_append]
  rfl

theorem branchGet_append (l r : List (Branch × Tree)) (k : Key) :
    branchGet (l ++ r) k = (branchGet l k).or (branchGet r k) := by
  rw [branchGet, branchEntries_append, OrdMap.lookup_append]
  rfl

theorem branchGet_eq_none (hh : ∀ x ∈ arr, Hangs x) (hne : ∀ x ∈ arr, x.1 ≠ k.head?) :
    branchGet arr k = none := by
  induction arr with
  | nil => rfl
  | cons x arr ih =>
    rw [List.forall_mem_cons] at hh hne
    rw [branchGet_cons, get_of_head_ne hh.1 hne.1.symm, ih hh.2 hne.2]
    rfl

theorem branchGet_of_not_isset (hh : ∀ x ∈ arr, Hangs x)
    (hset : Branches.isset arr k.head? = false) : branchGet arr k = none := by
  refine branchGet_eq_none hh ?_
  rintro ⟨b, t⟩ hx rfl
  rw [(Branches.isset_iff arr k.head?).mpr ⟨t, hx⟩] at hset
  exact absurd hset (by decide)

/-- Under a branch is only what hangs there. -/
theorem branchGet_append_cons {b : Branch} {t : Tree}
    (hs : Branches.Sorted (l ++ (b, t) :: r)) (hl : ∀ x ∈ l, Hangs x) (hr : ∀ x ∈ r, Hangs x)
    (hk : k.head? = b) : branchGet (l ++ (b, t) :: r) k = t.get k := by
  obtain ⟨-, -, h1, h2, -⟩ := Branches.sorted_append_cons.mp hs
  have hleft : branchGet l k = none := by
    refine branchGet_eq_none hl fun x hx heq => ?_
    have := h1 x hx
    rw [heq, hk] at this
    omega
  have hright : branchGet r k = none := by
    refine branchGet_eq_none hr fun x hx heq => ?_
    have := h2 x hx
    rw [heq, hk] at this
    omega
  rw [branchGet_append, branchGet_cons, hleft, hright, Option.none_or, Option.or_none]

theorem branchGet_of_mem (hs : Branches.Sorted arr) (hh : ∀ x ∈ arr, Hangs x) {x : Branch × Tree}
    (hx : x ∈ arr) (hk : k.head? = x.1) : branchGet arr k = x.2.get k := by
  obtain ⟨l, r, rfl⟩ := List.append_of_mem hx
  rw [List.forall_mem_append, List.forall_mem_cons] at hh
  exact branchGet_append_cons hs hh.1 hh.2.2 hk

/-- What is under the other branches stays when one is replaced. -/
theorem branchGet_replace {b : Branch} {t t' : Tree} (ht : Hangs (b, t)) (ht' : Hangs (b, t'))
    (hk : k.head? ≠ b) : branchGet (l ++ (b, t') :: r) k = branchGet (l ++ (b, t) :: r) k := by
  rw [branchGet_append, branchGet_append, branchGet_cons, branchGet_cons,
    get_of_head_ne ht hk, get_of_head_ne ht' hk]

theorem branchGet_insert (hs : Branches.Sorted arr) (hh : ∀ x ∈ arr, Hangs x) {b : Branch}
    (hset : Branches.isset arr b = false) {t : Tree} (ht : Hangs (b, t)) (k : Key) :
    branchGet (Branches.insert arr b t) k = if k.head? = b then t.get k else branchGet arr k := by
  have hbelow : ∀ x ∈ Branches.below arr b, Hangs x :=
    fun x hx => hh x (Branches.mem_below.mp hx).1
  have habove : ∀ x ∈ Branches.above arr b, Hangs x :=
    fun x hx => hh x (Branches.mem_above.mp hx).1
  rw [Branches.insert]
  split
  next hk => exact branchGet_append_cons (Branches.sorted_insert hs) hbelow habove hk
  next hk =>
    rw [branchGet_append, branchGet_cons, get_of_head_ne ht hk, Option.none_or,
      ← branchGet_append, Branches.below_append_above hs hset]

end Branch

end Tree

namespace Path

/-- A path leads to the keys of what hangs at its end. -/
theorem Fits.leads_of_mem {p : Path} {t : Tree} (h : p.Fits t) {k : Key} {v : Value}
    (hk : (k, v) ∈ t.entries) : p.Leads k := by
  cases p with
  | nil => trivial
  | cons s p =>
    rw [leads_cons]
    by_contra hne
    have hnone := Tree.get_of_head_ne (x := (s.branch, t)) h hne
    rw [Tree.get, OrdMap.lookup_eq_none_iff] at hnone
    exact hnone _ hk rfl

/-- A key the path leads to has the value that is at its end. -/
theorem get_plug {p : Path} {t : Tree} {k : Key} (hwf : (p.plug t).WF) (hk : p.Leads k) :
    (p.plug t).get (p.str ++ k) = t.get k := by
  have hwf' : t.WF := (wf_plug.mp hwf).2.2
  refine Option.ext fun v => ?_
  rw [Tree.get_eq_some_iff hwf, Tree.get_eq_some_iff hwf']
  exact mem_entries_plug hwf hk

/-- What is at the end of a path does not matter to other keys. -/
theorem get_plug_other {p : Path} {t t' : Tree} {k : Key} (hwf : (p.plug t).WF)
    (hwf' : (p.plug t').WF) (hk : ∀ r, k = p.str ++ r → ¬ p.Leads r) :
    (p.plug t').get k = (p.plug t).get k := by
  have hmid : ∀ u : Tree, p.Fits u → ∀ v, (k, v) ∉ Tree.behind p.str u.entries := by
    intro u hu v hmem
    obtain ⟨r, hr, hmem⟩ := Tree.mem_behind.mp hmem
    exact hk r hr (hu.leads_of_mem hmem)
  have ht := hmid t (wf_plug.mp hwf).2.1
  have ht' := hmid t' (wf_plug.mp hwf').2.1
  refine Option.ext fun v => ?_
  rw [Tree.get_eq_some_iff hwf', Tree.get_eq_some_iff hwf, entries_plug, entries_plug]
  simp only [List.mem_append, ht v, ht' v, or_false]

theorem Twin.get_plug {p p' : Path} (h : p.Twin p') (t : Tree) (k : Key) :
    (p'.plug t).get k = (p.plug t).get k := by
  apply Tree.get_congr
  rw [h.entries_plug, Path.entries_plug]

end Path
end Leaves
