import Leaves.Lib.Lex

/-!
The small helpers of `core/_util.hpp` the trie is built on: bytes and keys, 16-bit casts and the
comparison of a key with the string of a node.
-/

namespace Leaves

/-- Bytes are compared as unsigned values. -/
instance linearOrderUInt8 : LinearOrder UInt8 where
  le_refl := UInt8.le_refl
  le_trans _ _ _ := UInt8.le_trans
  le_antisymm _ _ := UInt8.le_antisymm
  le_total := UInt8.le_total
  lt_iff_le_not_ge a b := by
    rw [UInt8.lt_iff_toNat_lt, UInt8.le_iff_toNat_le, UInt8.le_iff_toNat_le]
    omega
  toDecidableLE := inferInstance

abbrev Key := List UInt8

/-- What is required of a result, if there is one. -/
instance elimDecidable {α : Type} (o : Option α) (P : α → Prop) [∀ a, Decidable (P a)] :
    Decidable (o.elim True P) :=
  match o with
  | none => inferInstanceAs (Decidable True)
  | some a => inferInstanceAs (Decidable (P a))

/-- The conversion to `uint16_t` that assigning to `keypos` or `link_idx` makes. -/
def u16 (n : Nat) : Nat := n % 65536

theorem u16_eq {n : Nat} (h : n < 65536) : u16 n = n := Nat.mod_eq_of_lt h

/-- A little-endian number, the first of `n` bytes is the lowest one. -/
def toLittle : Nat → Nat → List UInt8
  | 0, _ => []
  | n + 1, x => UInt8.ofNat x :: toLittle n (x / 256)

def ofLittle : List UInt8 → Nat
  | [] => 0
  | b :: bs => b.toNat + 256 * ofLittle bs

theorem length_toLittle (n x : Nat) : (toLittle n x).length = n := by
  induction n generalizing x with
  | zero => rfl
  | succ n ih => rw [toLittle, List.length_cons, ih]

theorem ofLittle_toLittle (n x : Nat) : ofLittle (toLittle n x) = x % 256 ^ n := by
  induction n generalizing x with
  | zero => rw [Nat.pow_zero, Nat.mod_one, toLittle, ofLittle]
  | succ n ih =>
    rw [toLittle, ofLittle, ih, Nat.pow_succ', Nat.mod_mul]
    rfl

/-- `std::string::resize`: cut off, or fill up with zero bytes. -/
def resize (s : Key) (size : Nat) : Key :=
  s.take size ++ List.replicate (size - s.length) 0

theorem resize_of_le {s : Key} {size : Nat} (h : size ≤ s.length) : resize s size = s.take size := by
  simp [resize, Nat.sub_eq_zero_of_le h]

@[simp]
theorem resize_append (s t : Key) : resize (s ++ t) s.length = s := by
  rw [resize_of_le (by simp)]
  simp

@[simp]
theorem resize_self (s : Key) : resize s s.length = s := by
  simp [resize]

/--
`get_prefix`: the number of equal leading bytes of `str1` and `str2`, and how the rest compares
(1: `str1` is bigger, 0: they are equal, -1: `str1` is smaller).
-/
def getPrefix : Key → Key → Nat × Int
  | [], [] => (0, 0)
  | _ :: _, [] => (0, 1)
  | [], _ :: _ => (0, -1)
  | a :: str1, b :: str2 =>
    if a = b then
      let (i, cmp) := getPrefix str1 str2
      (i + 1, cmp)
    else
      (0, if b < a then 1 else -1)

theorem getPrefix_le_left (s c : Key) : (getPrefix s c).1 ≤ s.length := by
  induction s, c using getPrefix.induct <;> simp_all [getPrefix]

theorem getPrefix_le_right (s c : Key) : (getPrefix s c).1 ≤ c.length := by
  induction s, c using getPrefix.induct <;> simp_all [getPrefix]

theorem take_getPrefix (s c : Key) : s.take (getPrefix s c).1 = c.take (getPrefix s c).1 := by
  induction s, c using getPrefix.induct <;> simp_all [getPrefix]

@[simp]
theorem getPrefix_append_left (p s c : Key) :
    getPrefix (p ++ s) (p ++ c) = (p.length + (getPrefix s c).1, (getPrefix s c).2) := by
  induction p with
  | nil => simp
  | cons a p ih =>
    simp only [List.cons_append, getPrefix, ih, List.length_cons, ↓reduceIte, Prod.mk.injEq,
      and_true]
    omega

@[simp]
theorem getPrefix_self (s : Key) : getPrefix s s = (s.length, 0) := by
  simpa [getPrefix] using getPrefix_append_left s [] []

/-- Behind the equal bytes different strings go on in different ways. -/
theorem head_drop_getPrefix {s c : Key} (h : s ≠ c) :
    (s.drop (getPrefix s c).1).head? ≠ (c.drop (getPrefix s c).1).head? := by
  induction s, c using getPrefix.induct with
  | case1 => exact absurd rfl h
  | case2 a s => simp [getPrefix]
  | case3 b c => simp [getPrefix]
  | case4 s a c i cmp heq ih =>
    have hne : s ≠ c := by
      rintro rfl
      exact h rfl
    have := ih hne
    rw [heq] at this
    simpa [getPrefix, heq] using this
  | case5 a s b c hne => simp [getPrefix, hne]

theorem getPrefix_eq_length_iff {s c : Key} :
    (getPrefix s c).1 = s.length ∧ (getPrefix s c).1 = c.length ↔ s = c := by
  constructor
  . rintro ⟨h1, h2⟩
    have h := take_getPrefix s c
    rw [List.take_of_length_le (Nat.le_of_eq h1.symm)] at h
    rwa [List.take_of_length_le (Nat.le_of_eq h2.symm)] at h
  . rintro rfl
    simp

/-- The three ways the comparison of a key with a node's string can end. -/
theorem getPrefix_cases (s c : Key) :
    (∃ r, s = c ++ r ∧ getPrefix s c = (c.length, if r = [] then 0 else 1)) ∨
    ((getPrefix s c).1 < c.length ∧ (getPrefix s c).2 = -1 ∧ Lex.Before s c) ∨
    ((getPrefix s c).1 < c.length ∧ (getPrefix s c).2 = 1 ∧ Lex.Behind s c) := by
  induction s, c using getPrefix.induct with
  | case1 => exact Or.inl ⟨[], by simp [getPrefix]⟩
  | case2 a s => exact Or.inl ⟨a :: s, by simp [getPrefix]⟩
  | case3 b c => exact Or.inr (Or.inl ⟨by simp [getPrefix], by simp [getPrefix], Lex.before_nil_cons b c⟩)
  | case4 s a c i cmp heq ih =>
    rcases ih with ⟨r, rfl, h⟩ | ⟨h1, h2, h3⟩ | ⟨h1, h2, h3⟩
    . exact Or.inl ⟨r, by simp, by simp [getPrefix, h]⟩
    . refine Or.inr (Or.inl ⟨?_, ?_, h3.append_left [_]⟩)
      . simpa [getPrefix] using h1
      . simpa [getPrefix] using h2
    . refine Or.inr (Or.inr ⟨?_, ?_, h3.append_left [_]⟩)
      . simpa [getPrefix] using h1
      . simpa [getPrefix] using h2
  | case5 a s b c hne =>
    by_cases hlt : b < a
    . exact Or.inr (Or.inr ⟨by simp [getPrefix, hne], by simp [getPrefix, hne, hlt],
        Lex.behind_of_cons_lt hlt s c⟩)
    . have hab : a < b := lt_of_le_of_ne (not_lt.mp hlt) hne
      exact Or.inr (Or.inl ⟨by simp [getPrefix, hne], by simp [getPrefix, hne, hlt],
        Lex.before_of_cons_lt hab s c⟩)

end Leaves
