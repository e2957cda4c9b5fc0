import Mathlib.Algebra.GroupWithZero.Nat

/-!
Computations with numbers of a fixed width. The value is the one that the machine computes, with a
note whether nothing has wrapped around on the way.
-/

namespace Leaves

structure Fixed (α : Type) where
  val : α
  exact : Bool
  deriving DecidableEq, Repr

namespace Fixed

variable {α β : Type}

instance : Monad Fixed where
  pure a := ⟨a, true⟩
  bind x f := ⟨(f x.val).val, x.exact && (f x.val).exact⟩

def add (w a b : Nat) : Fixed Nat := ⟨(a + b) % 2 ^ w, decide (a + b < 2 ^ w)⟩

def sub (w a b : Nat) : Fixed Nat := ⟨(2 ^ w + a - b) % 2 ^ w, decide (b ≤ a ∧ a < 2 ^ w)⟩

def mul (w a b : Nat) : Fixed Nat := ⟨a * b % 2 ^ w, decide (a * b < 2 ^ w)⟩

def cast (w a : Nat) : Fixed Nat := ⟨a % 2 ^ w, decide (a < 2 ^ w)⟩

/-! The rules: a computation is exact if and only if each of its steps is, on the exact values. -/

@[simp]
theorem exact_pure (a : α) : (pure a : Fixed α).exact = true := rfl

@[simp]
theorem val_pure (a : α) : (pure a : Fixed α).val = a := rfl

theorem val_bind (x : Fixed α) (f : α → Fixed β) : (x >>= f).val = (f x.val).val := rfl

theorem exact_bind (x : Fixed α) (f : α → Fixed β) :
    (x >>= f).exact = true ↔ x.exact = true ∧ (f x.val).exact = true := by
  rw [← Bool.and_eq_true]
  exact Iff.rfl

/-- `x` is exact under the condition `p`, and computes `a` then. -/
structure Computes (x : Fixed α) (p : Prop) (a : α) : Prop where
  exact : x.exact = true ↔ p
  val : p → x.val = a

theorem computes_pure (a : α) : Computes (pure a) True a where
  exact := iff_of_true rfl trivial
  val _ := rfl

theorem computes_add (w a b : Nat) : Computes (add w a b) (a + b < 2 ^ w) (a + b) where
  exact := decide_eq_true_iff
  val h := Nat.mod_eq_of_lt h

theorem computes_sub (w a b : Nat) : Computes (sub w a b) (b ≤ a ∧ a < 2 ^ w) (a - b) where
  exact := decide_eq_true_iff
  val h := by
    unfold sub
    rw [Nat.add_sub_assoc h.1, Nat.add_mod_left, Nat.mod_eq_of_lt (by omega)]

theorem computes_mul (w a b : Nat) : Computes (mul w a b) (a * b < 2 ^ w) (a * b) where
  exact := decide_eq_true_iff
  val h := Nat.mod_eq_of_lt h

theorem computes_cast (w a : Nat) : Computes (cast w a) (a < 2 ^ w) a where
  exact := decide_eq_true_iff
  val h := Nat.mod_eq_of_lt h

theorem Computes.bind {x : Fixed α} {f : α → Fixed β} {p q : Prop} {a : α} {b : β}
    (hx : Computes x p a) (hf : p → Computes (f a) q b) : Computes (x >>= f) (p ∧ q) b where
  exact := by
    rw [exact_bind, hx.exact]
    apply and_congr_right
    intro h
    rw [hx.val h, (hf h).exact]
  val h := by
    rw [val_bind, hx.val h.1, (hf h.1).val h.2]

/-- The same condition in other words. -/
theorem Computes.congr {x : Fixed α} {p q : Prop} {a : α} (h : Computes x p a) (hpq : p ↔ q) :
    Computes x q a where
  exact := h.exact.trans hpq
  val hq := h.val (hpq.2 hq)

end Fixed
end Leaves
