import Leaves.Lib.OrdMap

/-!
Merging one ordered map into another: every entry of the source decides what becomes of its key. The
result is characterised key by key, so it does not depend on the order of the entries.
-/

namespace Leaves
namespace OrdMap

section Merged

variable {α β : Type}

/-- What is under a key after a merge, from what is under it in the two maps. -/
def merged (choose : α → Option β → β → Option β) (k : α) (old : Option β) : Option β → Option β
  | none => old
  | some v => (choose k old v).or old

variable (choose : α → Option β → β → Option β) (k : α) (old : Option β) (v : β)

@[simp]
theorem merged_none : merged choose k old none = old := rfl

@[simp]
theorem merged_some : merged choose k old (some v) = (choose k old v).or old := rfl

end Merged

variable {α β : Type} [LinearOrder α]

/-- What `choose` says for the entry `e`, `none` leaves the map as it is. -/
def mergeStep (choose : α → Option β → β → Option β) (es : List (α × β)) (e : α × β) :
    List (α × β) :=
  match choose e.1 (lookup es e.1) e.2 with
  | none => es
  | some v => insert es e.1 v

def mergeWith (choose : α → Option β → β → Option β) (es src : List (α × β)) : List (α × β) :=
  src.foldl (mergeStep choose) es

variable {choose : α → Option β → β → Option β} {es src : List (α × β)}

theorem lookup_mergeStep (es : List (α × β)) (e : α × β) (k : α) :
    lookup (mergeStep choose es e) k =
      if e.1 = k then merged choose k (lookup es k) (some e.2) else lookup es k := by
  rw [mergeStep, merged]
  by_cases hk : e.1 = k
  . subst hk
    rw [if_pos rfl]
    cases choose e.1 (lookup es e.1) e.2 with
    | none => rfl
    | some v => simp [lookup_insert]
  . rw [if_neg hk]
    cases choose e.1 (lookup es e.1) e.2 with
    | none => rfl
    | some v => simp [lookup_insert, Ne.symm hk]

theorem ascending_mergeStep (h : Ascending es) (e : α × β) : Ascending (mergeStep choose es e) := by
  rw [mergeStep]
  cases choose e.1 (lookup es e.1) e.2 with
  | none => exact h
  | some v => exact ascending_insert h

/-- Each key is decided by its own entry only. -/
theorem lookup_mergeWith (h : Ascending src) (es : List (α × β)) (k : α) :
    lookup (mergeWith choose es src) k = merged choose k (lookup es k) (lookup src k) := by
  induction src generalizing es with
  | nil => rfl
  | cons e src ih =>
    rw [ascending_cons] at h
    have ih := ih h.2 (mergeStep choose es e)
    rw [mergeWith] at ih ⊢
    rw [List.foldl_cons, ih, lookup_mergeStep, lookup_cons]
    by_cases hk : e.1 = k
    . have hnone : lookup src k = none := by
        rw [lookup_eq_none_iff]
        intro x hx hxk
        have hlt := h.1 x hx
        rw [hk, hxk] at hlt
        exact lt_irrefl _ hlt
      rw [hnone, if_pos hk, if_pos hk, merged_none]
    . rw [if_neg hk, if_neg hk]

theorem ascending_mergeWith (h : Ascending es) : Ascending (mergeWith choose es src) := by
  induction src generalizing es with
  | nil => exact h
  | cons e src ih => exact ih (ascending_mergeStep h e)

/-- The merge is the only map with these values. -/
theorem eq_mergeWith {es' : List (α × β)} (h : Ascending es) (h' : Ascending es')
    (hsrc : Ascending src)
    (heq : ∀ k, lookup es' k = merged choose k (lookup es k) (lookup src k)) :
    es' = mergeWith choose es src := by
  refine h'.ext (ascending_mergeWith h) fun e => ?_
  rw [← lookup_eq_some_iff h', ← lookup_eq_some_iff (ascending_mergeWith h), heq,
    lookup_mergeWith hsrc]

end OrdMap
end Leaves
