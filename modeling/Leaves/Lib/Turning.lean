import Mathlib.Data.List.Basic

/-!
Lists that turn: up to some place their elements have one property, from there on another one.
-/

namespace Leaves

variable {α : Type}

/-- The first `n` elements have `P`, the others `Q`. -/
def Turns (n : Nat) (P Q : α → Prop) (l : List α) : Prop :=
  ∀ i x, l[i]? = some x → (i < n → P x) ∧ (n ≤ i → Q x)

namespace Turns

variable {n m : Nat} {P P' Q Q' : α → Prop} {x : α} {l l' : List α}

theorem nil : Turns n P Q ([] : List α) := by
  intro i x h
  simp at h

theorem mono (h : Turns n P Q l) (hP : ∀ x, P x → P' x) (hQ : ∀ x, Q x → Q' x) :
    Turns n P' Q' l := by
  intro i x hx
  obtain ⟨h1, h2⟩ := h i x hx
  exact ⟨fun hi => hP x (h1 hi), fun hi => hQ x (h2 hi)⟩

/-- The list has not turned yet. -/
theorem of_before (h : ∀ x ∈ l, P x) (hle : l.length ≤ n) : Turns n P Q l := by
  intro i x hx
  obtain ⟨hi, rfl⟩ := List.getElem?_eq_some_iff.mp hx
  exact ⟨fun _ => h _ (List.getElem_mem hi), fun hni => absurd hi (by omega)⟩

/-- The list has turned at its start. -/
theorem of_after (h : ∀ x ∈ l, Q x) : Turns 0 P Q l := by
  intro i x hx
  exact ⟨fun hi => absurd hi (by omega), fun _ => h x (List.mem_of_getElem? hx)⟩

theorem append (h : ∀ x ∈ l, P x) (h' : Turns m P Q l') : Turns (l.length + m) P Q (l ++ l') := by
  intro i x hx
  by_cases hi : i < l.length
  . rw [List.getElem?_append_left hi] at hx
    exact ⟨fun _ => h x (List.mem_of_getElem? hx), fun hle => absurd hi (by omega)⟩
  . rw [List.getElem?_append_right (by omega)] at hx
    obtain ⟨h1, h2⟩ := h' _ x hx
    exact ⟨fun hlt => h1 (by omega), fun hle => h2 (by omega)⟩

theorem cons (h : P x) (h' : Turns n P Q l) : Turns (n + 1) P Q (x :: l) := by
  have := append (l := [x]) (by simpa using h) h'
  rwa [List.length_singleton, Nat.add_comm] at this

/-- What follows a list that has turned. -/
theorem append_after (h : Turns n P Q l) (hlen : l' ≠ [] → n ≤ l.length) (h' : ∀ x ∈ l', Q x) :
    Turns n P Q (l ++ l') := by
  intro i x hx
  by_cases hi : i < l.length
  . rw [List.getElem?_append_left hi] at hx
    exact h i x hx
  . rw [List.getElem?_append_right (by omega)] at hx
    have hmem := List.mem_of_getElem? hx
    have hle := hlen (List.ne_nil_of_mem hmem)
    exact ⟨fun hlt => absurd hlt (by omega), fun _ => h' x hmem⟩

theorem map {β : Type} {f : β → α} {l : List β} (h : Turns n (P ∘ f) (Q ∘ f) l) :
    Turns n P Q (l.map f) := by
  intro i x hx
  rw [List.getElem?_map, Option.map_eq_some_iff] at hx
  obtain ⟨y, hy, rfl⟩ := hx
  exact h i y hy

end Turns
end Leaves
