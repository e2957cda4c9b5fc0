import Mathlib.Order.RelClasses
import Leaves.Lib.OrdMap

/-!
The nearest key of a set in the direction of an order. The smallest and the biggest key of an
ordered map and the neighbours of a key are such keys, for `<` and for `>`.
-/

namespace Leaves
namespace OrdMap

variable {α β : Type}

/-- The first key with `P` in the order `r`, nothing if no key has `P`. -/
def Nearest (r : α → α → Prop) (P : α → Prop) : Option α → Prop
  | none => ∀ x, ¬P x
  | some k => P k ∧ ∀ x, P x → x = k ∨ r k x

namespace Nearest

variable {r : α → α → Prop} {P Q : α → Prop} {o o' : Option α}

theorem congr (h : Nearest r P o) (hPQ : ∀ x, P x ↔ Q x) : Nearest r Q o := by
  have : P = Q := funext fun x => propext (hPQ x)
  rwa [← this]

theorem unique [Std.Asymm r] (h : Nearest r P o) (h' : Nearest r P o') : o = o' := by
  match o, o' with
  | none, none => rfl
  | none, some k => exact absurd h'.1 (h k)
  | some k, none => exact absurd h.1 (h' k)
  | some k, some k' =>
    rcases h.2 k' h'.1 with heq | hlt
    . rw [heq]
    . rcases h'.2 k h.1 with heq | hlt'
      . rw [heq]
      . exact absurd hlt' (Std.Asymm.asymm _ _ hlt)

theorem of_eq_some (o : Option α) : Nearest r (fun x => o = some x) o := by
  match o with
  | none =>
    intro x hx
    simp at hx
  | some k =>
    refine ⟨rfl, ?_⟩
    intro x hx
    rw [Option.some.injEq] at hx
    exact Or.inl hx.symm

/-- The nearest key of a set may stand for the set. -/
theorem union [IsTrans α r] (h : Nearest r P o) (h' : Nearest r (fun x => o = some x ∨ Q x) o') :
    Nearest r (fun x => P x ∨ Q x) o' := by
  match o, o' with
  | none, none =>
    intro x hx
    rcases hx with hx | hx
    . exact h x hx
    . exact h' x (Or.inr hx)
  | some k, none => exact absurd (Or.inl rfl) (h' k)
  | none, some m =>
    refine ⟨Or.inr (h'.1.resolve_left (by simp)), ?_⟩
    intro x hx
    exact h'.2 x (Or.inr (hx.resolve_left (h x)))
  | some k, some m =>
    refine ⟨?_, ?_⟩
    . rcases h'.1 with heq | hm
      . rw [Option.some.injEq] at heq
        rw [← heq]
        exact Or.inl h.1
      . exact Or.inr hm
    . intro x hx
      rcases hx with hx | hx
      . have hkm := h'.2 k (Or.inl rfl)
        rcases h.2 x hx with rfl | hlt
        . exact hkm
        . rcases hkm with rfl | hkm
          . exact Or.inr hlt
          . exact Or.inr (trans_of r hkm hlt)
      . exact h'.2 x (Or.inr hx)

end Nearest

variable [LinearOrder α]

/-- The key is in the map. -/
def Has (es : List (α × β)) (k : α) : Prop := (lookup es k).isSome = true

instance (es : List (α × β)) (k : α) : Decidable (Has es k) := inferInstanceAs (Decidable (_ = _))

theorem has_iff {es : List (α × β)} {k : α} : Has es k ↔ ∃ v, (k, v) ∈ es := by
  rw [Has, Option.isSome_iff_ne_none, Ne, lookup_eq_none_iff]
  constructor
  . intro h
    simp only [ne_eq, not_forall, not_not] at h
    obtain ⟨e, he, rfl⟩ := h
    exact ⟨e.2, he⟩
  . intro h hall
    obtain ⟨v, hv⟩ := h
    exact hall _ hv rfl

theorem has_of_mem {es : List (α × β)} {e : α × β} (h : e ∈ es) : Has es e.1 :=
  has_iff.mpr ⟨e.2, h⟩

theorem has_cons {es : List (α × β)} {e : α × β} {k : α} :
    Has (e :: es) k ↔ k = e.1 ∨ Has es k := by
  rw [Has, lookup_cons]
  split
  next h => simp [h]
  next h => simp [Has, Ne.symm h]

theorem nearest_first {es : List (α × β)} (h : Ascending es) :
    Nearest (· < ·) (Has es) (first es) := by
  match es with
  | [] =>
    intro x hx
    simp [Has] at hx
  | e :: es =>
    refine ⟨has_of_mem (by simp), ?_⟩
    intro x hx
    obtain ⟨v, hv⟩ := has_iff.mp hx
    rcases List.mem_cons.mp hv with heq | hmem
    . rw [← heq]
      exact Or.inl rfl
    . exact Or.inr ((ascending_cons.mp h).1 _ hmem)

theorem nearest_last {es : List (α × β)} (h : Ascending es) :
    Nearest (· > ·) (Has es) (last es) := by
  rcases List.eq_nil_or_concat es with rfl | ⟨l, e, rfl⟩
  . intro x hx
    simp [Has] at hx
  . rw [List.concat_eq_append] at h ⊢
    rw [last, List.getLast?_concat]
    refine ⟨has_of_mem (by simp), ?_⟩
    intro x hx
    obtain ⟨v, hv⟩ := has_iff.mp hx
    rcases List.mem_append.mp hv with hmem | heq
    . exact Or.inr ((ascending_append.mp h).2.2 _ hmem e (by simp))
    . rw [← List.mem_singleton.mp heq]
      exact Or.inl rfl

theorem has_above {es : List (α × β)} {k x : α} : Has (above es k) x ↔ Has es x ∧ k < x := by
  rw [Has, lookup_above]
  split <;> simp [Has, *]

theorem has_below {es : List (α × β)} {k x : α} : Has (below es k) x ↔ Has es x ∧ k > x := by
  rw [Has, lookup_below]
  split <;> simp [Has, *]

/-- The step of a cursor goes to the nearest key behind the one it is at. -/
def Steps (r : α → α → Prop) (move : List (α × β) → α → Option α) : Prop :=
  ∀ es, Ascending es → ∀ k, Nearest r (fun x => Has es x ∧ r k x) (move es k)

theorem steps_next : Steps (β := β) (α := α) (· < ·) next := by
  intro es h k
  exact (nearest_first (h.filter _)).congr fun x => has_above

theorem steps_prev : Steps (β := β) (α := α) (· > ·) prev := by
  intro es h k
  exact (nearest_last (h.filter _)).congr fun x => has_below

section Ahead

variable {r : α → α → Prop} [DecidableRel r]

/-- How many entries there are from a position on. -/
def ahead (r : α → α → Prop) [DecidableRel r] (es : List (α × β)) : Option α → Nat
  | none => 0
  | some k => (es.filter fun e => e.1 = k ∨ r k e.1).length

theorem ahead_le (es : List (α × β)) (pos : Option α) : ahead r es pos ≤ es.length := by
  unfold ahead
  split
  . exact Nat.zero_le _
  . exact List.length_filter_le _ _

theorem ahead_pos {es : List (α × β)} {k : α} (h : Has es k) : 0 < ahead r es (some k) := by
  obtain ⟨v, hv⟩ := has_iff.mp h
  have hmem : (k, v) ∈ es.filter fun e => e.1 = k ∨ r k e.1 := by simp [hv]
  exact List.length_pos_of_mem hmem

theorem ahead_move_lt [IsStrictTotalOrder α r] {move : List (α × β) → α → Option α}
    (hmove : Steps r move) {es : List (α × β)} (hes : Ascending es) {k : α} (hk : Has es k) :
    ahead r es (move es k) < ahead r es (some k) := by
  have hnear := hmove es hes k
  match hm : move es k with
  | none => exact ahead_pos hk
  | some k' =>
    rw [hm] at hnear
    have hlt : r k k' := hnear.1.2
    obtain ⟨v, hv⟩ := has_iff.mp hk
    have hmem : (k, v) ∈ es.filter fun e => e.1 = k ∨ r k e.1 := by simp [hv]
    have hsub : (es.filter fun e => e.1 = k' ∨ r k' e.1) =
        (es.filter fun e => e.1 = k ∨ r k e.1).filter fun e => e.1 = k' ∨ r k' e.1 := by
      rw [List.filter_filter]
      apply List.filter_congr
      intro e _
      by_cases he : e.1 = k' ∨ r k' e.1
      . have : e.1 = k ∨ r k e.1 := by
          rcases he with he | he
          . rw [he]
            exact Or.inr hlt
          . exact Or.inr (trans_of r hlt he)
        simp [he, this]
      . simp [he]
    rw [ahead, ahead, hsub, List.length_filter_lt_length_iff_exists]
    refine ⟨_, hmem, ?_⟩
    simp only [decide_eq_true_eq, not_or]
    constructor
    . intro heq
      rw [heq] at hlt
      exact Std.Irrefl.irrefl _ hlt
    . exact Std.Asymm.asymm _ _ hlt

end Ahead

end OrdMap
end Leaves
