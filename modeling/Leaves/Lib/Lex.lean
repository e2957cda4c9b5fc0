import Mathlib.Algebra.GroupWithZero.Nat
import Mathlib.Data.List.Lex
import Mathlib.Order.Lattice

/-!
Lexicographic order of strings over a linearly ordered alphabet, as far as it interacts with common
prefixes: the order of two strings is decided behind the part they share.
-/

namespace Leaves
namespace Lex

variable {α : Type} [LinearOrder α]

@[simp]
theorem append_lt_append_iff (c s t : List α) : c ++ s < c ++ t ↔ s < t := by
  induction c with
  | nil => simp
  | cons a c ih => simp [ih]

theorem cons_lt_cons_of_lt {a b : α} (h : a < b) (s t : List α) : a :: s < b :: t := by
  rw [List.cons_lt_cons_iff]
  exact Or.inl h

theorem lt_append_of_lt_head {s t : List α} {a b : α} (hs : s.head? = some a)
    (ht : t.head? = some b) (h : a < b) : s < t := by
  match s, t with
  | x :: s, y :: t =>
    simp only [List.head?_cons, Option.some.injEq] at hs ht
    subst hs ht
    exact cons_lt_cons_of_lt h s t

theorem nil_lt_of_head {t : List α} {b : α} (ht : t.head? = some b) : [] < t := by
  match t with
  | y :: t => simp

/--
`Before s c` says that `s` is smaller than every string that starts with `c`.
-/
def Before (s c : List α) : Prop := ∀ t, s < c ++ t

/--
`Behind s c` says that `s` is bigger than every string that starts with `c`.
-/
def Behind (s c : List α) : Prop := ∀ t, c ++ t < s

theorem Before.append_left {s c : List α} (h : Before s c) (p : List α) :
    Before (p ++ s) (p ++ c) := by
  intro t
  simpa [List.append_assoc] using h t

theorem Behind.append_left {s c : List α} (h : Behind s c) (p : List α) :
    Behind (p ++ s) (p ++ c) := by
  intro t
  simpa [List.append_assoc] using h t

theorem before_of_cons_lt {a b : α} (h : a < b) (s c : List α) : Before (a :: s) (b :: c) := by
  intro t
  exact cons_lt_cons_of_lt h s (c ++ t)

theorem behind_of_cons_lt {a b : α} (h : a < b) (s c : List α) : Behind (b :: s) (a :: c) := by
  intro t
  exact cons_lt_cons_of_lt h (c ++ t) s

theorem before_nil_cons (b : α) (c : List α) : Before [] (b :: c) := by
  intro t
  simp

end Lex
end Leaves
