import Mathlib.Algebra.GroupWithZero.Nat
import Mathlib.Data.List.Basic

/-!
The maximal runs of the numbers below a bound that have a property, as the places where they start
and their lengths.
-/

namespace Leaves

/-- These are the maximal runs below `n`, in order. -/
structure Runs (p : Nat → Prop) (n : Nat) (rs : List (Nat × Nat)) : Prop where
  pos : ∀ r ∈ rs, 0 < r.2
  inside : ∀ r ∈ rs, ∀ j, r.1 ≤ j → j < r.1 + r.2 → p j ∧ j < n
  left : ∀ r ∈ rs, r.1 = 0 ∨ ¬p (r.1 - 1)
  right : ∀ r ∈ rs, r.1 + r.2 = n ∨ ¬p (r.1 + r.2)
  cover : ∀ j < n, p j → ∃ r ∈ rs, r.1 ≤ j ∧ j < r.1 + r.2
  sorted : rs.Pairwise fun r r' => r.1 + r.2 < r'.1

namespace Runs

variable {p : Nat → Prop} {n a k : Nat} {rs : List (Nat × Nat)}

theorem nil : Runs p 0 [] where
  pos := by simp
  inside := by simp
  left := by simp
  right := by simp
  cover := by simp
  sorted := List.Pairwise.nil

theorem end_le (h : Runs p n rs) {r : Nat × Nat} (hr : r ∈ rs) : r.1 + r.2 ≤ n := by
  have hpos := h.pos r hr
  have hlast := (h.inside r hr (r.1 + r.2 - 1) (by omega) (by omega)).2
  omega

/-- The next number does not have the property. -/
theorem skip (h : Runs p n rs) (hn : ¬p n) : Runs p (n + 1) rs where
  pos := h.pos
  inside := by
    intro r hr j hle hlt
    have hin := h.inside r hr j hle hlt
    exact ⟨hin.1, by omega⟩
  left := h.left
  right := by
    intro r hr
    right
    rcases h.right r hr with heq | hnot
    . rw [heq]
      exact hn
    . exact hnot
  cover := by
    intro j hj hp
    have hne : j ≠ n := by
      rintro rfl
      exact hn hp
    exact h.cover j (by omega) hp
  sorted := h.sorted

/-- The next number has the property and starts a run. -/
theorem start (h : Runs p n rs) (hn : p n) (hlast : n = 0 ∨ ¬p (n - 1)) :
    Runs p (n + 1) (rs ++ [(n, 1)]) := by
  have hbefore : ∀ r ∈ rs, r.1 + r.2 < n := by
    intro r hr
    have hle := h.end_le hr
    have hpos := h.pos r hr
    have hin := (h.inside r hr (r.1 + r.2 - 1) (by omega) (by omega)).1
    by_contra hge
    have heq : r.1 + r.2 = n := by omega
    rw [heq] at hin
    rcases hlast with h0 | hnot
    . omega
    . exact hnot hin
  constructor
  . intro r hr
    rw [List.mem_append, List.mem_singleton] at hr
    rcases hr with hr | rfl
    . exact h.pos r hr
    . exact Nat.one_pos
  . intro r hr j hle hlt
    rw [List.mem_append, List.mem_singleton] at hr
    rcases hr with hr | rfl
    . have hin := h.inside r hr j hle hlt
      exact ⟨hin.1, by omega⟩
    . have heq : j = n := by
        dsimp only at hle hlt
        omega
      rw [heq]
      exact ⟨hn, Nat.lt_succ_self n⟩
  . intro r hr
    rw [List.mem_append, List.mem_singleton] at hr
    rcases hr with hr | rfl
    . exact h.left r hr
    . exact hlast
  . intro r hr
    rw [List.mem_append, List.mem_singleton] at hr
    rcases hr with hr | rfl
    . right
      rcases h.right r hr with heq | hnot
      . have hlt := hbefore r hr
        omega
      . exact hnot
    . exact Or.inl rfl
  . intro j hj hp
    rcases Nat.lt_succ_iff_lt_or_eq.mp hj with hlt | rfl
    . obtain ⟨r, hr, hin⟩ := h.cover j hlt hp
      exact ⟨r, List.mem_append_left _ hr, hin⟩
    . exact ⟨(j, 1), by simp, by simp⟩
  . rw [List.pairwise_append]
    refine ⟨h.sorted, List.pairwise_singleton _ _, ?_⟩
    intro r hr r' hr'
    rw [List.mem_singleton] at hr'
    rw [hr']
    exact hbefore r hr

/-- The next number has the property and goes on with the last run. -/
theorem extend (h : Runs p n (rs ++ [(a, k)])) (hend : a + k = n) (hn : p n) :
    Runs p (n + 1) (rs ++ [(a, k + 1)]) := by
  have hsorted := h.sorted
  rw [List.pairwise_append] at hsorted
  have hmem : (a, k) ∈ rs ++ [(a, k)] := by simp
  have hold : ∀ r ∈ rs, r ∈ rs ++ [(a, k)] := fun r hr => List.mem_append_left _ hr
  constructor
  . intro r hr
    rw [List.mem_append, List.mem_singleton] at hr
    rcases hr with hr | rfl
    . exact h.pos r (hold r hr)
    . exact Nat.succ_pos k
  . intro r hr j hle hlt
    rw [List.mem_append, List.mem_singleton] at hr
    rcases hr with hr | rfl
    . have hin := h.inside r (hold r hr) j hle hlt
      exact ⟨hin.1, by omega⟩
    . dsimp only at hle hlt
      by_cases heq : j = n
      . rw [heq]
        exact ⟨hn, Nat.lt_succ_self n⟩
      . have hin := h.inside (a, k) hmem j hle (by dsimp only; omega)
        exact ⟨hin.1, by omega⟩
  . intro r hr
    rw [List.mem_append, List.mem_singleton] at hr
    rcases hr with hr | rfl
    . exact h.left r (hold r hr)
    . exact h.left (a, k) hmem
  . intro r hr
    rw [List.mem_append, List.mem_singleton] at hr
    rcases hr with hr | rfl
    . right
      rcases h.right r (hold r hr) with heq | hnot
      . have hlt := hsorted.2.2 r hr (a, k) (List.mem_singleton_self _)
        dsimp only at hlt
        omega
      . exact hnot
    . left
      dsimp only
      omega
  . intro j hj hp
    by_cases heq : j = n
    . exact ⟨(a, k + 1), by simp, by dsimp only; omega⟩
    . obtain ⟨r, hr, hin⟩ := h.cover j (by omega) hp
      rw [List.mem_append, List.mem_singleton] at hr
      rcases hr with hr | rfl
      . exact ⟨r, List.mem_append_left _ hr, hin⟩
      . exact ⟨(a, k + 1), by simp, by dsimp only at hin ⊢; omega⟩
  . rw [List.pairwise_append]
    refine ⟨hsorted.1, List.pairwise_singleton _ _, ?_⟩
    intro r hr r' hr'
    rw [List.mem_singleton] at hr'
    rw [hr']
    exact hsorted.2.2 r hr (a, k) (List.mem_singleton_self _)

end Runs
end Leaves
