import Mathlib.Data.List.Sort

/-!
What stands at the end of a list that has been sorted by a number, equal ones staying in their
order.
-/

namespace StableSort

variable {α : Type} (key : α → Nat)

def sort (l : List α) : List α := l.insertionSort fun a b => key a ≤ key b

/-- The element with the biggest number, the last one of these. -/
def latest : List α → Option α
  | [] => none
  | a :: l =>
    match latest l with
    | none => some a
    | some b => if key a ≤ key b then some b else some a

theorem getLast?_orderedInsert {a b : α} {l : List α}
    (hs : (l ++ [b]).Pairwise fun x y => key x ≤ key y) :
    ((l ++ [b]).orderedInsert (fun x y => key x ≤ key y) a).getLast? =
      if key a ≤ key b then some b else some a := by
  induction l with
  | nil =>
    rw [List.nil_append, List.orderedInsert_cons]
    split <;> simp
  | cons x l ih =>
    rw [List.cons_append] at hs ⊢
    rw [List.orderedInsert_cons]
    split
    next hax =>
      have hxb : key x ≤ key b := (List.pairwise_cons.mp hs).1 b (by simp)
      rw [if_pos (hax.trans hxb), ← List.cons_append, ← List.cons_append, List.getLast?_concat]
    next hax =>
      have hne : (l ++ [b]).orderedInsert (fun x y => key x ≤ key y) a ≠ [] := by
        intro h
        have := List.orderedInsert_length (fun x y => key x ≤ key y) (l ++ [b]) a
        rw [h] at this
        simp at this
      obtain ⟨y, l', hl'⟩ := List.exists_cons_of_ne_nil hne
      rw [← ih (List.pairwise_cons.mp hs).2, hl', List.getLast?_cons_cons]

theorem pairwise_sort (l : List α) : (sort key l).Pairwise fun a b => key a ≤ key b := by
  have : Std.Total fun a b => key a ≤ key b := ⟨fun a b => Nat.le_total _ _⟩
  have : IsTrans α fun a b => key a ≤ key b := ⟨fun _ _ _ => Nat.le_trans⟩
  exact List.pairwise_insertionSort _ l

theorem mem_of_latest {l : List α} {a : α} (h : latest key l = some a) : a ∈ l := by
  induction l with
  | nil => simp [latest] at h
  | cons x l ih =>
    rw [latest] at h
    split at h
    . rw [Option.some.injEq] at h
      simp [h]
    next b hb =>
      split at h
      . rw [Option.some.injEq] at h
        rw [h] at hb
        exact List.mem_cons_of_mem _ (ih hb)
      . rw [Option.some.injEq] at h
        simp [h]

/-- The last element of the sorted list. -/
theorem getLast?_sort (l : List α) : (sort key l).getLast? = latest key l := by
  induction l with
  | nil => rfl
  | cons a l ih =>
    have hsort := pairwise_sort key l
    rw [sort, List.insertionSort_cons, ← sort, latest]
    rw [← ih]
    rcases List.eq_nil_or_concat (sort key l) with h | ⟨s, b, h⟩
    . rw [h]
      rfl
    . rw [List.concat_eq_append] at h
      rw [h] at hsort ⊢
      rw [getLast?_orderedInsert key hsort, List.getLast?_concat]

theorem filter_orderedInsert_neg {a : α} {l : List α} (p : α → Bool) (ha : ¬p a = true) :
    (l.orderedInsert (fun x y => key x ≤ key y) a).filter p = l.filter p := by
  induction l with
  | nil => simp [ha]
  | cons x l ih =>
    rw [List.orderedInsert_cons]
    split
    . rw [List.filter_cons_of_neg ha]
    . rw [List.filter_cons, List.filter_cons, ih]

theorem orderedInsert_filter {a : α} {l : List α} (p : α → Bool) (ha : p a = true)
    (hs : l.Pairwise fun x y => key x ≤ key y) :
    (l.orderedInsert (fun x y => key x ≤ key y) a).filter p =
      (l.filter p).orderedInsert (fun x y => key x ≤ key y) a := by
  induction l with
  | nil => simp [ha]
  | cons x l ih =>
    have ih := ih (List.pairwise_cons.mp hs).2
    rw [List.orderedInsert_cons]
    split
    next hax =>
      rw [List.filter_cons_of_pos ha]
      -- everything that is left of the list is as big as `x`
      match hl : (x :: l).filter p with
      | [] => rfl
      | y :: l' =>
        have hy : y ∈ x :: l := (List.mem_filter.mp (by rw [hl]; exact List.mem_cons_self)).1
        have hxy : key a ≤ key y := by
          rcases List.mem_cons.mp hy with rfl | hy
          . exact hax
          . exact hax.trans ((List.pairwise_cons.mp hs).1 y hy)
        rw [List.orderedInsert_cons, if_pos hxy]
    next hax =>
      by_cases hx : p x = true
      . rw [List.filter_cons_of_pos hx, List.filter_cons_of_pos hx, ih]
        rw [List.orderedInsert_cons, if_neg hax]
      . rw [List.filter_cons_of_neg hx, List.filter_cons_of_neg hx, ih]

theorem sort_cons (a : α) (l : List α) :
    sort key (a :: l) = (sort key l).orderedInsert (fun x y => key x ≤ key y) a := rfl

/-- Sorting does not depend on the elements that are left out. -/
theorem sort_filter (p : α → Bool) (l : List α) : sort key (l.filter p) = (sort key l).filter p := by
  induction l with
  | nil => rfl
  | cons a l ih =>
    rw [sort_cons]
    by_cases ha : p a = true
    . rw [List.filter_cons_of_pos ha, sort_cons, ih]
      rw [orderedInsert_filter key p ha (pairwise_sort key l)]
    . rw [List.filter_cons_of_neg ha, ih, filter_orderedInsert_neg key p ha]

theorem sort_map {β : Type} (f : β → α) (l : List β) :
    sort key (l.map f) = (sort (key ∘ f) l).map f :=
  (List.map_insertionSort _ _ f l fun _ _ _ _ => Iff.rfl).symm

theorem mem_sort {l : List α} {a : α} : a ∈ sort key l ↔ a ∈ l :=
  List.mem_insertionSort _

theorem latest_split {l r : List α} {c : α} (hl : ∀ x ∈ l, key x ≤ key c)
    (hr : ∀ x ∈ r, key x < key c) : latest key (l ++ c :: r) = some c := by
  induction l with
  | nil =>
    rw [List.nil_append, latest]
    split
    . rfl
    next b hb =>
      rw [if_neg (Nat.not_le.mpr (hr b (mem_of_latest key hb)))]
  | cons x l ih =>
    rw [List.cons_append, latest, ih fun y hy => hl y (List.mem_cons_of_mem _ hy)]
    exact if_pos (hl x List.mem_cons_self)

end StableSort
