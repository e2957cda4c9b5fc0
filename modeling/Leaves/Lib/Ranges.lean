import Mathlib.Algebra.GroupWithZero.Nat
import Mathlib.Data.List.Count
import Mathlib.Data.List.Pairwise

/-!
Ranges of numbers, and what it means that they tile other ranges: every number of these is in
exactly one range.
-/

namespace Leaves

structure Range where
  start : Nat
  size : Nat
  deriving DecidableEq, Repr

namespace Range

def Has (r : Range) (x : Nat) : Prop := r.start ≤ x ∧ x < r.start + r.size

instance (r : Range) (x : Nat) : Decidable (r.Has x) := inferInstanceAs (Decidable (_ ∧ _))

/-- The ranges have no number in common. -/
def Apart (r r' : Range) : Prop := ∀ x, r.Has x → ¬r'.Has x

theorem Apart.symm {r r' : Range} (h : r.Apart r') : r'.Apart r := by
  intro x hx hx'
  exact h x hx' hx

theorem apart_iff {r r' : Range} (h : 0 < r.size) (h' : 0 < r'.size) :
    r.Apart r' ↔ r.start + r.size ≤ r'.start ∨ r'.start + r'.size ≤ r.start := by
  constructor
  . intro hapart
    have hstart := hapart r.start
    have hstart' := hapart r'.start
    unfold Has at hstart hstart'
    omega
  . intro hor x hx hx'
    unfold Has at hx hx'
    omega

/-- How many of the ranges have the number. -/
def owners (rs : List Range) (x : Nat) : Nat := rs.countP fun r => r.Has x

@[simp]
theorem owners_nil (x : Nat) : owners [] x = 0 := rfl

theorem owners_cons (r : Range) (rs : List Range) (x : Nat) :
    owners (r :: rs) x = owners rs x + if r.Has x then 1 else 0 := by
  simp [owners, List.countP_cons]

theorem owners_append (rs rs' : List Range) (x : Nat) :
    owners (rs ++ rs') x = owners rs x + owners rs' x :=
  List.countP_append

theorem owners_perm {rs rs' : List Range} (h : rs.Perm rs') (x : Nat) :
    owners rs x = owners rs' x :=
  h.countP_eq _

theorem owners_pos {rs : List Range} {x : Nat} : 0 < owners rs x ↔ ∃ r ∈ rs, r.Has x := by
  simp [owners, List.countP_pos_iff]

/-- A range cut in two has the same numbers. -/
theorem owners_split (rs : List Range) (s a b x : Nat) :
    owners (⟨s, a⟩ :: ⟨s + a, b⟩ :: rs) x = owners (⟨s, a + b⟩ :: rs) x := by
  have hiff : (Range.mk s (a + b)).Has x ↔ (Range.mk s a).Has x ∨ (Range.mk (s + a) b).Has x := by
    simp only [Has]
    omega
  have hnot : (Range.mk s a).Has x → ¬(Range.mk (s + a) b).Has x := by
    simp only [Has]
    omega
  rw [owners_cons, owners_cons, owners_cons]
  by_cases h : (Range.mk s a).Has x
  . simp [hiff, h, hnot h]
  . simp [hiff, h]

/-- Every number of the outer ranges is in exactly one of the ranges, the others are in none. -/
structure Tiles (rs outer : List Range) : Prop where
  eq : ∀ x, owners rs x = owners outer x
  le : ∀ x, owners outer x ≤ 1

namespace Tiles

variable {rs rs' outer : List Range}

theorem of_owners (h : Tiles rs outer) (heq : ∀ x, owners rs' x = owners rs x) :
    Tiles rs' outer :=
  ⟨fun x => (heq x).trans (h.eq x), h.le⟩

theorem of_outer {outer' : List Range} (h : Tiles rs outer)
    (heq : ∀ x, owners outer' x = owners outer x) : Tiles rs outer' := by
  constructor
  . intro x
    rw [h.eq, heq]
  . intro x
    rw [heq]
    exact h.le x

theorem perm (h : Tiles rs outer) (hperm : rs'.Perm rs) : Tiles rs' outer :=
  h.of_owners (owners_perm hperm)

theorem pairwise (h : Tiles rs outer) : rs.Pairwise Apart := by
  have hle : ∀ x, owners rs x ≤ 1 := fun x => (h.eq x).symm ▸ h.le x
  clear h
  induction rs with
  | nil => exact List.Pairwise.nil
  | cons r rs ih =>
    rw [List.pairwise_cons]
    constructor
    . intro r' hr' x hx hx'
      have hpos := owners_pos.mpr ⟨r', hr', hx'⟩
      have := hle x
      rw [owners_cons, if_pos hx] at this
      omega
    . apply ih
      intro x
      have := hle x
      rw [owners_cons] at this
      omega

theorem apart_of_cons {r r' : Range} (h : Tiles (r :: rs) outer) (hr' : r' ∈ rs) : r.Apart r' :=
  (List.pairwise_cons.mp h.pairwise).1 r' hr'

/-- A number is in one of the ranges only. -/
theorem eq_of_has {r r' : Range} (h : Tiles rs outer) (hr : r ∈ rs) (hr' : r' ∈ rs) {x : Nat}
    (hx : r.Has x) (hx' : r'.Has x) : r = r' := by
  have : Std.Symm Apart := ⟨fun _ _ hapart => hapart.symm⟩
  by_contra hne
  exact h.pairwise.forall hr hr' hne x hx hx'

theorem exists_iff (h : Tiles rs outer) (x : Nat) :
    (∃ r ∈ rs, r.Has x) ↔ ∃ r ∈ outer, r.Has x := by
  rw [← owners_pos, ← owners_pos, h.eq]

/-- A new outer range is a tile of its own. -/
theorem add {r : Range} (h : Tiles rs outer) (hr : ∀ r' ∈ outer, r.Apart r') :
    Tiles (r :: rs) (r :: outer) := by
  constructor
  . intro x
    rw [owners_cons, owners_cons, h.eq]
  . intro x
    rw [owners_cons]
    split
    next hx =>
      have hnone : ¬0 < owners outer x := by
        rw [owners_pos]
        rintro ⟨r', hr', hx'⟩
        exact hr r' hr' x hx hx'
      omega
    next =>
      have := h.le x
      omega

end Tiles
end Range
end Leaves
