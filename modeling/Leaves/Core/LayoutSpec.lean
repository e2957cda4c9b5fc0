import Leaves.Core.Layout
import Mathlib.Data.Nat.Bitwise

/-!
What it means that memory holds a trie node, and that the queries of the layout agree with the sorted
array of branches then.
-/

namespace Leaves

namespace Branches

variable {β : Type} {arr : List (Branch × β)}

/-- The bytes that are set. -/
def members (arr : List (Branch × β)) (c : Nat) : Bool := isset arr (some (UInt8.ofNat c))

theorem isset_cons (x : Branch × β) (arr : List (Branch × β)) (key : Branch) :
    isset (x :: arr) key = (x.1 == key || isset arr key) := rfl

theorem isset_append (l r : List (Branch × β)) (key : Branch) :
    isset (l ++ r) key = (isset l key || isset r key) := List.any_append

theorem isset_insert (arr : List (Branch × β)) (key k : Branch) (x : β) :
    isset (insert arr key x) k = (decide (k = key) || isset arr k) := by
  rw [Bool.eq_iff_iff, Bool.or_eq_true, decide_eq_true_eq, isset_iff, isset_iff]
  constructor
  . intro ⟨y, hy⟩
    rw [insert, List.mem_append, List.mem_cons] at hy
    rcases hy with hy | hy | hy
    . exact .inr ⟨y, (mem_below.mp hy).1⟩
    . cases hy
      exact .inl rfl
    . exact .inr ⟨y, (mem_above.mp hy).1⟩
  . rintro (rfl | ⟨y, hy⟩)
    . exact ⟨x, List.mem_append_right _ List.mem_cons_self⟩
    . rcases Int.lt_trichotomy k.toInt key.toInt with hlt | heq | hgt
      . exact ⟨y, List.mem_append_left _ (mem_below.mpr ⟨hy, hlt⟩)⟩
      . rw [Branch.toInt_inj] at heq
        rw [heq]
        exact ⟨x, List.mem_append_right _ List.mem_cons_self⟩
      . exact ⟨y, List.mem_append_right _ (List.mem_cons_of_mem _ (mem_above.mpr ⟨hy, hgt⟩))⟩

theorem isset_remove (arr : List (Branch × β)) (key k : Branch) :
    isset (remove arr key) k = (isset arr k && !decide (k = key)) := by
  rw [Bool.eq_iff_iff, Bool.and_eq_true, Bool.not_eq_true', decide_eq_false_iff_not, isset_iff,
    isset_iff]
  constructor
  . rintro ⟨y, hy⟩
    rw [remove, List.mem_filter, decide_eq_true_eq] at hy
    exact ⟨⟨y, hy.1⟩, hy.2⟩
  . rintro ⟨⟨y, hy⟩, hne⟩
    exact ⟨y, List.mem_filter.mpr ⟨hy, decide_eq_true hne⟩⟩

theorem members_toNat (arr : List (Branch × β)) (c : UInt8) :
    members arr c.toNat = isset arr (some c) := by
  rw [members, UInt8.ofNat_toNat]

theorem ofNat_eq_iff {c : Nat} (hc : c < 256) (d : UInt8) : UInt8.ofNat c = d ↔ c = d.toNat := by
  rw [← UInt8.toNat_inj, UInt8.toNat_ofNat_of_lt' hc]

theorem members_insert {c : Nat} (hc : c < 256) (d : UInt8) (x : β) :
    members (insert arr (some d) x) c = Function.update (members arr) d.toNat true c := by
  rw [members, isset_insert]
  by_cases heq : c = d.toNat
  . rw [heq, UInt8.ofNat_toNat, decide_eq_true rfl, Function.update_self]
    rfl
  . rw [Function.update_of_ne heq, decide_eq_false, Bool.false_or]
    . rfl
    . intro hsome
      exact heq ((ofNat_eq_iff hc d).1 (Option.some.inj hsome))

theorem members_insert_none (c : Nat) (x : β) : members (insert arr none x) c = members arr c := by
  rw [members, isset_insert, decide_eq_false (by simp), Bool.false_or]
  rfl

theorem members_remove {c : Nat} (hc : c < 256) (d : UInt8) :
    members (remove arr (some d)) c = Function.update (members arr) d.toNat false c := by
  rw [members, isset_remove]
  by_cases heq : c = d.toNat
  . rw [heq, UInt8.ofNat_toNat, decide_eq_true rfl, Function.update_self, Bool.not_true,
      Bool.and_false]
  . rw [Function.update_of_ne heq, decide_eq_false, Bool.not_false, Bool.and_true]
    . rfl
    . intro hsome
      exact heq ((ofNat_eq_iff hc d).1 (Option.some.inj hsome))

theorem members_remove_none (c : Nat) : members (remove arr none) c = members arr c := by
  rw [members, isset_remove, decide_eq_false (by simp), Bool.not_false, Bool.and_true]
  rfl

/-- One more element is counted if it is below the bound. -/
theorem count_insert {m q : Nat → Bool} {d : Nat} (hd : m d = false)
    (hm : ∀ c, q c = true ↔ c = d ∨ m c = true) (n : Nat) :
    Nat.count (fun c => q c = true) n =
      Nat.count (fun c => m c = true) n + if d < n then 1 else 0 := by
  induction n with
  | zero => rfl
  | succ n ih =>
    rw [Nat.count_succ, Nat.count_succ, ih]
    have hstep : (if q n = true then 1 else 0) =
        (if m n = true then 1 else 0) + if d = n then 1 else 0 := by
      by_cases heq : d = n
      . rw [if_pos ((hm n).2 (.inl heq.symm)), if_pos heq, ← heq, hd, if_neg Bool.false_ne_true]
      . have hiff : (n = d ∨ m n = true) ↔ m n = true := or_iff_right (fun h => heq h.symm)
        rw [if_congr ((hm n).trans hiff) rfl rfl, if_neg heq, Nat.add_zero]
    have hbound : (if d < n + 1 then 1 else 0) =
        (if d < n then 1 else 0) + if d = n then 1 else 0 := by
      split <;> split <;> split <;> omega
    rw [hstep, hbound]
    omega

theorem isset_false_of_lt {x : Branch × β} (h : Sorted (x :: arr)) : isset arr x.1 = false := by
  apply Bool.eq_false_iff.2
  intro hset
  obtain ⟨y, hy⟩ := (isset_iff arr x.1).1 hset
  have hlt := (List.pairwise_cons.mp h).1 _ hy
  exact absurd hlt (Int.lt_irrefl _)

/-- The branches in front of a bound. -/
theorem length_filter_lt (h : Sorted arr) {n : Nat} (hn : n ≤ 256) :
    (arr.filter fun x => x.1.toInt < (n : Int)).length =
      (isset arr none).toNat + Nat.count (fun c => members arr c = true) n := by
  induction arr with
  | nil =>
    have hzero : Nat.count (fun c => members ([] : List (Branch × β)) c = true) n = 0 := by
      rw [Nat.count_iff_forall_not]
      intro c _ hc
      cases hc
    rw [hzero]
    rfl
  | cons x arr ih =>
    have hrest := ih h.of_cons
    have hnot := isset_false_of_lt h
    match x, h, hnot with
    | (none, v), h, hnot =>
      have hcount : Nat.count (fun c => members ((none, v) :: arr) c = true) n =
          Nat.count (fun c => members arr c = true) n := by
        apply Bits.count_congr
        intro c _
        rw [members, isset_cons]
        rfl
      have hlt : decide (Branch.toInt none < (n : Int)) = true := by
        rw [decide_eq_true_eq, Branch.toInt_none]
        omega
      rw [List.filter_cons, if_pos hlt, List.length_cons, hrest, hcount, isset_cons, hnot]
      simp only [beq_self_eq_true, Bool.true_or, Bool.toNat_true, Bool.toNat_false]
      omega
    | (some d, v), h, hnot =>
      have hd : members arr d.toNat = false := by
        rw [members_toNat]
        exact hnot
      have hmem : ∀ c, c < n →
          (members ((some d, v) :: arr) c = true ↔ c = d.toNat ∨ members arr c = true) := by
        intro c hc
        rw [members, isset_cons, Bool.or_eq_true, beq_iff_eq]
        apply or_congr_left
        rw [Option.some_inj, eq_comm]
        exact ofNat_eq_iff (by omega) d
      have hcount : Nat.count (fun c => members ((some d, v) :: arr) c = true) n =
          Nat.count (fun c => members arr c = true) n + if d.toNat < n then 1 else 0 := by
        rw [← count_insert (q := fun c => decide (c = d.toNat) || members arr c) hd]
        . apply Bits.count_congr
          intro c hc
          rw [hmem c hc, Bool.or_eq_true, decide_eq_true_eq]
        . intro c
          rw [Bool.or_eq_true, decide_eq_true_eq]
      have hnone : isset ((some d, v) :: arr) none = isset arr none := by
        rw [isset_cons]
        rfl
      rw [hcount, hnone, List.filter_cons]
      by_cases hlt : d.toNat < n
      . rw [if_pos, if_pos hlt, List.length_cons, hrest]
        . rfl
        . rw [decide_eq_true_eq, Branch.toInt_some]
          omega
      . rw [if_neg, if_neg hlt, hrest]
        . rfl
        . rw [decide_eq_true_eq, Branch.toInt_some]
          omega

theorem length_below (h : Sorted arr) (c : UInt8) :
    (below arr (some c)).length =
      (isset arr none).toNat + Nat.count (fun c => members arr c = true) c.toNat :=
  length_filter_lt h (Nat.le_of_lt c.toNat_lt)

theorem length_eq (h : Sorted arr) :
    arr.length = (isset arr none).toNat + Nat.count (fun c => members arr c = true) 256 := by
  have hall : (arr.filter fun x => x.1.toInt < ((256 : Nat) : Int)) = arr := by
    rw [List.filter_eq_self]
    intro x _
    have hle := Branch.toInt_le x.1
    rw [decide_eq_true_eq]
    omega
  rw [← length_filter_lt h (Nat.le_refl 256), hall]

theorem next_eq_some (h : Sorted arr) {key k : Branch} (hset : isset arr k = true)
    (hlt : key.toInt < k.toInt)
    (hmin : ∀ k', isset arr k' = true → key.toInt < k'.toInt → k.toInt ≤ k'.toInt) :
    next arr key = some k := by
  obtain ⟨x, hx⟩ := (isset_iff arr k).1 hset
  have hmem : (k, x) ∈ above arr key := mem_above.2 ⟨hx, hlt⟩
  rw [next]
  cases habove : above arr key with
  | nil =>
    rw [habove] at hmem
    cases hmem
  | cons y ys =>
    have hy : y ∈ above arr key := by
      rw [habove]
      exact List.mem_cons_self
    have hle := hmin y.1 ((isset_iff arr y.1).2 ⟨y.2, (mem_above.1 hy).1⟩) (mem_above.1 hy).2
    have hsorted : Sorted (y :: ys) := by
      rw [← habove]
      exact h.filter _
    rw [habove] at hmem
    have heq : y.1 = k := by
      rcases List.mem_cons.1 hmem with rfl | hmem
      . rfl
      . have hlt' := (List.pairwise_cons.1 hsorted).1 _ hmem
        exact Branch.toInt_inj.1 (Int.le_antisymm (Int.le_of_lt hlt') hle)
    rw [List.head?_cons, Option.map_some, heq]

theorem next_eq_none {key : Branch}
    (hnone : ∀ k, isset arr k = true → ¬key.toInt < k.toInt) : next arr key = none := by
  have hnil : above arr key = [] := by
    rw [above, List.filter_eq_nil_iff]
    intro x hx
    rw [decide_eq_true_eq]
    exact hnone x.1 ((isset_iff arr x.1).2 ⟨x.2, hx⟩)
  rw [next, hnil]
  rfl

theorem prev_eq_some (h : Sorted arr) {key k : Branch} (hset : isset arr k = true)
    (hlt : k.toInt < key.toInt)
    (hmax : ∀ k', isset arr k' = true → k'.toInt < key.toInt → k'.toInt ≤ k.toInt) :
    prev arr key = some k := by
  obtain ⟨x, hx⟩ := (isset_iff arr k).1 hset
  have hmem : (k, x) ∈ below arr key := mem_below.2 ⟨hx, hlt⟩
  rw [prev]
  rcases List.eq_nil_or_concat' (below arr key) with hnil | ⟨ys, y, hbelow⟩
  . rw [hnil] at hmem
    cases hmem
  . have hy : y ∈ below arr key := by
      rw [hbelow]
      exact List.mem_append_right _ List.mem_cons_self
    have hle := hmax y.1 ((isset_iff arr y.1).2 ⟨y.2, (mem_below.1 hy).1⟩) (mem_below.1 hy).2
    have hsorted : Sorted (ys ++ [y]) := by
      rw [← hbelow]
      exact h.filter _
    rw [hbelow] at hmem
    have heq : y.1 = k := by
      rcases List.mem_append.1 hmem with hmem | hmem
      . have hlt' := (List.pairwise_append.1 hsorted).2.2 _ hmem y List.mem_cons_self
        exact Branch.toInt_inj.1 (Int.le_antisymm hle (Int.le_of_lt hlt'))
      . exact (congrArg Prod.fst (List.mem_singleton.1 hmem)).symm
    rw [hbelow, List.getLast?_concat, Option.map_some, heq]

theorem prev_eq_none {key : Branch}
    (hnone : ∀ k, isset arr k = true → ¬k.toInt < key.toInt) : prev arr key = none := by
  have hnil : below arr key = [] := by
    rw [below, List.filter_eq_nil_iff]
    intro x hx
    rw [decide_eq_true_eq]
    exact hnone x.1 ((isset_iff arr x.1).2 ⟨x.2, hx⟩)
  rw [prev, hnil]
  rfl

end Branches

namespace Layout

open Branches

/-- The memory holds the node. -/
structure Rep (hashSize : Nat) (b : Bytes) (t : TrieNode) : Prop where
  sorted : Sorted t.array
  len_le : t.len ≤ 255
  arrayLen : arrayLen b = t.count + if t.hasNone then 2 ^ 15 else 0
  compressedLen : compressedLen b = t.len
  compressed : compressed hashSize b = t.compressed
  lowerStart : lowerStart b = prefixSize hashSize t.len
  arrayStart : Layout.arrayStart b = align (Layout.lowerStart b + Bits.count (upper b) * 4)
  bitmap : Bitmap (upper b) (lower b) (members t.array)
  links : ∀ i x, t.array[i]? = some x → array b i = x.2

theorem ubit_eq (c : UInt8) : ubit c = c.toNat / 32 := Nat.shiftRight_eq_div_pow c.toNat 5

theorem lbit_eq (c : UInt8) : lbit c = c.toNat % 32 := Nat.and_two_pow_sub_one_eq_mod c.toNat 5

theorem hasBit_eq (x g : Nat) : hasBit x g = x.testBit g := by
  have hpos : 2 ^ g ≠ 0 := Nat.ne_of_gt (Nat.two_pow_pos g)
  rw [hasBit, Nat.one_shiftLeft, Nat.and_two_pow]
  cases x.testBit g <;> simp

section Flags

variable {n : Nat} (hn : n < 2 ^ 15)
include hn

theorem mask_none (f : Bool) : ((n + if f then 2 ^ 15 else 0) &&& NULL_MASK ≠ 0) ↔ f = true := by
  rw [NULL_MASK, Nat.one_shiftLeft, Nat.and_two_pow]
  cases f with
  | false =>
    rw [if_neg Bool.false_ne_true, Nat.add_zero, Nat.testBit_lt_two_pow hn]
    simp
  | true =>
    rw [if_pos rfl, Nat.add_comm, Nat.testBit_two_pow_add_eq, Nat.testBit_lt_two_pow hn]
    simp

theorem mask_count (f : Bool) : (n + if f then 2 ^ 15 else 0) &&& (NULL_MASK - 1) = n := by
  rw [NULL_MASK, Nat.one_shiftLeft, Nat.and_two_pow_sub_one_eq_mod]
  cases f with
  | false => exact Nat.mod_eq_of_lt hn
  | true =>
    rw [if_pos rfl, Nat.add_mod_right]
    exact Nat.mod_eq_of_lt hn

end Flags

theorem hasBit_upper (b : Bytes) (c : UInt8) :
    hasBit (upper b) (ubit c) = (upper b).testBit (c.toNat / 32) := by
  rw [hasBit_eq, ubit_eq]

theorem hasBit_lower (b : Bytes) (c : UInt8) :
    hasBit (lower b (Bits.index (upper b) (ubit c))) (lbit c) =
      (lower b (Bits.index (upper b) (c.toNat / 32))).testBit (c.toNat % 32) := by
  rw [hasBit_eq, ubit_eq, lbit_eq]

namespace Rep

variable {hashSize : Nat} {b : Bytes} {t : TrieNode} (h : Rep hashSize b t)
include h

theorem count_le : t.count ≤ 257 := length_le h.sorted

theorem count_eq : count b = t.count := by
  have hle := h.count_le
  rw [count, h.arrayLen, mask_count (by omega)]

theorem hasNone_eq : hasNone b = t.hasNone := by
  have hle := h.count_le
  rw [hasNone, h.arrayLen, Bool.eq_iff_iff, decide_eq_true_eq]
  exact mask_none (by omega) _

theorem isset_eq (key : Branch) : isset b key = t.isset key := by
  cases key with
  | none => exact h.hasNone_eq
  | some c =>
    rw [Layout.isset, hasBit_upper, hasBit_lower, ← h.bitmap.isset c.toNat_lt, members_toNat]
    rfl

theorem branchIndex_eq {c : UInt8} (hup : (upper b).testBit (c.toNat / 32) = true) :
    branchIndex (lower b) (hasNone b) (Bits.index (upper b) (ubit c)) (lbit c) =
      (below t.array (some c)).length := by
  have hpos := h.bitmap.position c.toNat_lt hup
  have hnone : t.hasNone = Branches.isset t.array none := rfl
  rw [length_below h.sorted, branchIndex, h.hasNone_eq, hnone, ubit_eq, lbit_eq, ← hpos]
  change Bits.index _ _ + _ + _ = _
  omega

theorem arrayIndex_eq (key : Branch) :
    arrayIndex b key = (t.arrayIndex key).elim (-1) fun i => (i : Int) := by
  cases key with
  | none =>
    have hbelow : below t.array none = [] := by
      rw [below, List.filter_eq_nil_iff]
      intro x _
      have hle := Branch.neg_one_le_toInt x.1
      rw [decide_eq_true_eq, Branch.toInt_none]
      omega
    rw [Layout.arrayIndex, h.hasNone_eq, TrieNode.arrayIndex, Branches.arrayIndex, hbelow]
    change (if t.hasNone then 0 else -1) = Option.elim (if t.hasNone then some 0 else none) _ _
    cases t.hasNone <;> rfl
  | some c =>
    have hset : Branches.isset t.array (some c) = ((upper b).testBit (c.toNat / 32) &&
        (lower b (Bits.index (upper b) (c.toNat / 32))).testBit (c.toNat % 32)) := by
      rw [← h.bitmap.isset c.toNat_lt, members_toNat]
    simp only [Layout.arrayIndex]
    rw [hasBit_upper, hasBit_lower, TrieNode.arrayIndex, Branches.arrayIndex, hset]
    cases hup : (upper b).testBit (c.toNat / 32) with
    | false => rfl
    | true =>
      cases (lower b (Bits.index (upper b) (c.toNat / 32))).testBit (c.toNat % 32) with
      | false => rfl
      | true =>
        rw [if_pos rfl, if_pos rfl, h.branchIndex_eq hup]
        rfl

end Rep

/-- The byte `k` as the result of a query. -/
theorem joinBits_eq (g k : Nat) : joinBits g k = ((32 * g + k : Nat) : Int) := by
  rw [joinBits, if_neg (by omega)]
  omega

section Scan

variable {b : Bytes} {m : Nat → Bool} (h : Bitmap (upper b) (lower b) m)
include h

theorem lower_lt {g : Nat} (hup : (upper b).testBit g = true) :
    lower b (Bits.index (upper b) g) < 2 ^ 32 :=
  h.word_lt _ (Bitmap.index_lt h.upper_lt hup)

/-- The lower bitmap of a group that is there has a bit. -/
theorem lower_ne_zero {g : Nat} (hup : (upper b).testBit g = true) :
    lower b (Bits.index (upper b) g) ≠ 0 := by
  have hg := Bitmap.testBit_lt_8 h.upper_lt hup
  obtain ⟨j, hj, hm⟩ := (h.upper g hg).1 hup
  intro hzero
  have hword := h.word g hg hup j hj
  rw [hzero, Nat.zero_testBit, hm] at hword
  cases hword

theorem nextLower_spec (c : UInt8)
    (hgroup : ∀ d, d < 256 → c.toNat < d → m d = true → d / 32 ≠ c.toNat / 32) :
    (nextLower b c = OUT_OF_RANGE ∧ ∀ d, d < 256 → c.toNat < d → m d = false) ∨
      ∃ k : Nat, nextLower b c = k ∧ c.toNat < k ∧ k < 256 ∧ m k = true ∧
        ∀ d, d < 256 → c.toNat < d → m d = true → k ≤ d := by
  have hc := c.toNat_lt
  unfold nextLower
  rw [ubit_eq]
  rcases Bits.next_spec (Bitmap.lt_32 h.upper_lt) (c.toNat / 32) with
    ⟨heq, hno⟩ | ⟨g, heq, hlt, _, hup, hmin⟩
  . refine .inl ⟨?_, ?_⟩
    . simp only [heq]
      exact if_pos (by decide)
    . intro d hd hcd
      apply Bool.eq_false_iff.2
      intro hm
      have hup := h.testBit_upper hd hm
      have hne := hgroup d hd hcd hm
      rw [hno (d / 32) (by omega)] at hup
      cases hup
  . have hg := Bitmap.testBit_lt_8 h.upper_lt hup
    rcases Bits.first_spec (lower_lt h hup) with ⟨hzero, _⟩ | ⟨j, hfirst, hj, hbit, hmin'⟩
    . exact absurd hzero (lower_ne_zero h hup)
    . rw [h.word g hg hup j hj] at hbit
      refine .inr ⟨32 * g + j, ?_, by omega, by omega, hbit, ?_⟩
      . simp only [heq]
        rw [if_neg (by omega), Int.toNat_natCast, hfirst, joinBits_eq]
      . intro d hd hcd hm
        have hup' := h.testBit_upper hd hm
        have hne := hgroup d hd hcd hm
        have hge : g ≤ d / 32 := by
          apply Nat.le_of_not_lt
          intro hlt'
          rw [hmin (d / 32) (by omega) hlt'] at hup'
          cases hup'
        rcases Nat.lt_or_eq_of_le hge with hgt | rfl
        . omega
        . have hjd : j ≤ d % 32 := by
            apply Nat.le_of_not_lt
            intro hlt'
            have hbit' := hmin' (d % 32) hlt'
            rw [h.word _ hg hup _ (Nat.mod_lt _ (by decide)), Nat.div_add_mod, hm] at hbit'
            cases hbit'
          omega

/-- The first byte behind the byte. -/
theorem next_some_spec (c : UInt8) :
    (next b (some c) = OUT_OF_RANGE ∧ ∀ d, d < 256 → c.toNat < d → m d = false) ∨
      ∃ k : Nat, next b (some c) = k ∧ c.toNat < k ∧ k < 256 ∧ m k = true ∧
        ∀ d, d < 256 → c.toNat < d → m d = true → k ≤ d := by
  have hc := c.toNat_lt
  have hgc : c.toNat / 32 < 8 := by omega
  unfold next
  simp only [hasBit_upper]
  cases hup : (upper b).testBit (c.toNat / 32) with
  | false =>
    rw [if_neg Bool.false_ne_true]
    apply nextLower_spec h c
    intro d hd _ hm heq
    have hup' := h.testBit_upper hd hm
    rw [heq, hup] at hup'
    cases hup'
  | true =>
    rw [if_pos rfl, ubit_eq, lbit_eq]
    rcases Bits.next_spec (lower_lt h hup) (c.toNat % 32) with
      ⟨heq, hno⟩ | ⟨j, heq, hlt, hj, hbit, hmin⟩
    . rw [heq, if_pos (by decide)]
      apply nextLower_spec h c
      intro d hd hcd hm hdc
      have hbit := hno (d % 32) (by omega)
      rw [h.word _ hgc hup _ (Nat.mod_lt _ (by decide)), ← hdc, Nat.div_add_mod, hm] at hbit
      cases hbit
    . rw [h.word _ hgc hup j hj] at hbit
      rw [heq, if_neg (by omega), joinBits_eq]
      refine .inr ⟨_, rfl, by omega, by omega, hbit, ?_⟩
      intro d hd hcd hm
      apply Nat.le_of_not_lt
      intro hlt'
      have hdc : d / 32 = c.toNat / 32 := by omega
      have hbit' := hmin (d % 32) (by omega) (by omega)
      rw [h.word _ hgc hup _ (Nat.mod_lt _ (by decide)), ← hdc, Nat.div_add_mod, hm] at hbit'
      cases hbit'

theorem prevLower_spec (c : UInt8)
    (hgroup : ∀ d, d < c.toNat → m d = true → d / 32 ≠ c.toNat / 32) :
    (prevLower b c = (if hasNone b then -1 else OUT_OF_RANGE) ∧
        ∀ d, d < c.toNat → m d = false) ∨
      ∃ k : Nat, prevLower b c = k ∧ k < c.toNat ∧ m k = true ∧
        ∀ d, d < c.toNat → m d = true → d ≤ k := by
  have hc := c.toNat_lt
  unfold prevLower
  rw [ubit_eq]
  rcases Bits.prev_spec (Bitmap.lt_32 h.upper_lt) (c.toNat / 32) with
    ⟨heq, hno⟩ | ⟨g, heq, hlt, _, hup, hmax⟩
  . refine .inl ⟨?_, ?_⟩
    . simp only [heq]
      exact if_pos (by decide)
    . intro d hd
      apply Bool.eq_false_iff.2
      intro hm
      have hup := h.testBit_upper (by omega) hm
      have hne := hgroup d hd hm
      rw [hno (d / 32) (by omega)] at hup
      cases hup
  . have hg := Bitmap.testBit_lt_8 h.upper_lt hup
    rcases Bits.last_spec (lower_lt h hup) with ⟨hzero, _⟩ | ⟨j, hlast, hj, hbit, hmax'⟩
    . exact absurd hzero (lower_ne_zero h hup)
    . rw [h.word g hg hup j hj] at hbit
      refine .inr ⟨32 * g + j, ?_, by omega, hbit, ?_⟩
      . simp only [heq]
        rw [if_neg (by omega), Int.toNat_natCast, hlast, joinBits_eq]
      . intro d hd hm
        have hup' := h.testBit_upper (by omega) hm
        have hne := hgroup d hd hm
        have hle : d / 32 ≤ g := by
          apply Nat.le_of_not_lt
          intro hlt'
          rw [hmax (d / 32) hlt' (by omega)] at hup'
          cases hup'
        rcases Nat.lt_or_eq_of_le hle with hlt' | rfl
        . omega
        . have hjd : d % 32 ≤ j := by
            apply Nat.le_of_not_lt
            intro hlt'
            have hbit' := hmax' (d % 32) hlt'
            rw [h.word _ hg hup _ (Nat.mod_lt _ (by decide)), Nat.div_add_mod, hm] at hbit'
            cases hbit'
          omega

/-- The last byte in front of the byte. -/
theorem prev_some_spec (c : UInt8) :
    (prev b (some c) = (if hasNone b then -1 else OUT_OF_RANGE) ∧
        ∀ d, d < c.toNat → m d = false) ∨
      ∃ k : Nat, prev b (some c) = k ∧ k < c.toNat ∧ m k = true ∧
        ∀ d, d < c.toNat → m d = true → d ≤ k := by
  have hc := c.toNat_lt
  have hgc : c.toNat / 32 < 8 := by omega
  unfold prev
  simp only [hasBit_upper]
  cases hup : (upper b).testBit (c.toNat / 32) with
  | false =>
    rw [if_neg Bool.false_ne_true]
    apply prevLower_spec h c
    intro d hd hm heq
    have hup' := h.testBit_upper (by omega) hm
    rw [heq, hup] at hup'
    cases hup'
  | true =>
    rw [if_pos rfl, ubit_eq, lbit_eq]
    rcases Bits.prev_spec (lower_lt h hup) (c.toNat % 32) with
      ⟨heq, hno⟩ | ⟨j, heq, hlt, hj, hbit, hmax⟩
    . rw [heq, if_pos (by decide)]
      apply prevLower_spec h c
      intro d hd hm hdc
      have hbit := hno (d % 32) (by omega)
      rw [h.word _ hgc hup _ (Nat.mod_lt _ (by decide)), ← hdc, Nat.div_add_mod, hm] at hbit
      cases hbit
    . rw [h.word _ hgc hup j hj] at hbit
      rw [heq, if_neg (by omega), joinBits_eq]
      refine .inr ⟨_, rfl, by omega, hbit, ?_⟩
      intro d hd hm
      apply Nat.le_of_not_lt
      intro hlt'
      have hdc : d / 32 = c.toNat / 32 := by omega
      have hbit' := hmax (d % 32) (by omega) (by omega)
      rw [h.word _ hgc hup _ (Nat.mod_lt _ (by decide)), ← hdc, Nat.div_add_mod, hm] at hbit'
      cases hbit'

/-- The first byte of all. -/
theorem firstByte_spec :
    (Bits.first (upper b) = -1 ∧ ∀ d, d < 256 → m d = false) ∨
      ∃ g k : Nat, Bits.first (upper b) = g ∧
        joinBits (Bits.first (upper b)) (Bits.first (lower b 0)) = k ∧ k < 256 ∧ m k = true ∧
        ∀ d, d < 256 → m d = true → k ≤ d := by
  rcases Bits.first_spec (Bitmap.lt_32 h.upper_lt) with ⟨hzero, heq⟩ | ⟨g, heq, _, hup, hmin⟩
  . refine .inl ⟨heq, ?_⟩
    intro d hd
    apply Bool.eq_false_iff.2
    intro hm
    have hup := h.testBit_upper hd hm
    rw [hzero, Nat.zero_testBit] at hup
    cases hup
  . have hg := Bitmap.testBit_lt_8 h.upper_lt hup
    have hindex : Bits.index (upper b) g = 0 := by
      rw [Bits.index_eq _ (by omega), Nat.count_iff_forall_not]
      intro i hi
      rw [hmin i hi]
      exact Bool.false_ne_true
    have hlt := lower_lt h hup
    have hne := lower_ne_zero h hup
    have hword := h.word g hg hup
    rw [hindex] at hlt hne hword
    rcases Bits.first_spec hlt with ⟨hzero, _⟩ | ⟨j, hfirst, hj, hbit, hmin'⟩
    . exact absurd hzero hne
    . rw [hword j hj] at hbit
      refine .inr ⟨g, 32 * g + j, heq, ?_, by omega, hbit, ?_⟩
      . rw [heq, hfirst, joinBits_eq]
      . intro d hd hm
        have hup' := h.testBit_upper hd hm
        have hge : g ≤ d / 32 := by
          apply Nat.le_of_not_lt
          intro hlt'
          rw [hmin (d / 32) hlt'] at hup'
          cases hup'
        rcases Nat.lt_or_eq_of_le hge with hgt | heq'
        . omega
        . have hjd : j ≤ d % 32 := by
            apply Nat.le_of_not_lt
            intro hlt'
            have hbit' := hmin' (d % 32) hlt'
            rw [hword _ (Nat.mod_lt _ (by decide)), heq', Nat.div_add_mod, hm] at hbit'
            cases hbit'
          omega

end Scan

namespace Rep

variable {hashSize : Nat} {b : Bytes} {t : TrieNode} (h : Rep hashSize b t)
include h

/-- What a query for a branch returns, `OUT_OF_RANGE` for none. -/
def result (o : Option Branch) : Int := o.elim OUT_OF_RANGE Branch.toInt

omit h in
theorem isset_ofNat {k : Nat} (hk : k < 256) (hm : members t.array k = true) :
    Branches.isset t.array (some (UInt8.ofNat k)) = true ∧
      Branch.toInt (some (UInt8.ofNat k)) = k := by
  refine ⟨hm, ?_⟩
  rw [Branch.toInt_some, UInt8.toNat_ofNat_of_lt' hk]

/-- The smallest byte behind a bound is the next branch. -/
theorem next_of_least {key : Branch} {k : Nat} (hk : k < 256) (hm : members t.array k = true)
    (hlt : key.toInt < k)
    (hmin : ∀ d : Nat, d < 256 → key.toInt < d → members t.array d = true → k ≤ d) :
    result (t.next key) = k := by
  obtain ⟨hset, hint⟩ := isset_ofNat hk hm
  have hnext : t.next key = some (some (UInt8.ofNat k)) := by
    apply next_eq_some h.sorted hset
    . rw [hint]
      exact hlt
    . intro k' hset' hlt'
      cases k' with
      | none =>
        have hle := Branch.neg_one_le_toInt key
        rw [Branch.toInt_none] at hlt'
        omega
      | some d =>
        have hle := hmin d.toNat d.toNat_lt hlt' (by rw [members_toNat]; exact hset')
        rw [hint, Branch.toInt_some]
        omega
  rw [hnext]
  exact hint

theorem next_eq (key : Branch) : next b key = result (t.next key) := by
  have hnone : ∀ key : Branch, (∀ d : Nat, d < 256 → key.toInt < d → members t.array d = false) →
      t.next key = none := by
    intro key hno
    apply next_eq_none
    intro k hset hlt
    cases k with
    | none =>
      have hle := Branch.neg_one_le_toInt key
      rw [Branch.toInt_none] at hlt
      omega
    | some d =>
      have hd := hno d.toNat d.toNat_lt hlt
      rw [members_toNat, hset] at hd
      cases hd
  cases key with
  | none =>
    rcases firstByte_spec h.bitmap with ⟨heq, hno⟩ | ⟨g, k, heq, hjoin, hk, hm, hmin⟩
    . rw [hnone none (fun d hd _ => hno d hd)]
      simp only [next, heq]
      exact if_pos (by decide)
    . rw [h.next_of_least hk hm]
      . simp only [next]
        rw [hjoin, heq, if_neg (by omega)]
      . rw [Branch.toInt_none]
        omega
      . intro d hd _ hmd
        exact hmin d hd hmd
  | some c =>
    rcases next_some_spec h.bitmap c with ⟨heq, hno⟩ | ⟨k, heq, hlt, hk, hm, hmin⟩
    . rw [hnone (some c), heq]
      . rfl
      . intro d hd hcd
        rw [Branch.toInt_some] at hcd
        exact hno d hd (by omega)
    . rw [heq, h.next_of_least hk hm]
      . rw [Branch.toInt_some]
        omega
      . intro d hd hcd hmd
        rw [Branch.toInt_some] at hcd
        exact hmin d hd (by omega) hmd

theorem prev_eq (key : Branch) : prev b key = result (t.prev key) := by
  cases key with
  | none =>
    have hprev : t.prev none = none := by
      apply prev_eq_none
      intro k _ hlt
      have hle := Branch.neg_one_le_toInt k
      rw [Branch.toInt_none] at hlt
      omega
    rw [hprev]
    rfl
  | some c =>
    have hc := c.toNat_lt
    rcases prev_some_spec h.bitmap c with ⟨heq, hno⟩ | ⟨k, heq, hlt, hm, hmax⟩
    . rw [heq, h.hasNone_eq]
      -- no byte is in front of it
      have hbytes : ∀ d : UInt8, Branches.isset t.array (some d) = true →
          ¬Branch.toInt (some d) < Branch.toInt (some c) := by
        intro d hset hlt
        rw [Branch.toInt_some, Branch.toInt_some] at hlt
        have hd := hno d.toNat (by omega)
        rw [members_toNat, hset] at hd
        cases hd
      cases hn : t.hasNone with
      | true =>
        have hprev : t.prev (some c) = some none := by
          apply prev_eq_some h.sorted hn
          . rw [Branch.toInt_none, Branch.toInt_some]
            omega
          . intro k hset hlt
            cases k with
            | none => exact Int.le_refl _
            | some d => exact absurd hlt (hbytes d hset)
        rw [hprev]
        rfl
      | false =>
        have hprev : t.prev (some c) = none := by
          apply prev_eq_none
          intro k hset
          cases k with
          | none =>
            have hset' : t.hasNone = true := hset
            rw [hn] at hset'
            cases hset'
          | some d => exact hbytes d hset
        rw [hprev]
        rfl
    . obtain ⟨hset, hint⟩ := isset_ofNat (by omega : k < 256) hm
      have hprev : t.prev (some c) = some (some (UInt8.ofNat k)) := by
        apply prev_eq_some h.sorted hset
        . rw [hint, Branch.toInt_some]
          omega
        . intro k' hset' hlt'
          rw [hint]
          cases k' with
          | none =>
            rw [Branch.toInt_none]
            omega
          | some d =>
            rw [Branch.toInt_some, Branch.toInt_some] at hlt'
            have hle := hmax d.toNat (by omega) (by rw [members_toNat]; exact hset')
            rw [Branch.toInt_some]
            omega
      rw [heq, hprev]
      exact hint.symm

/-- The first branch of a node that has one. -/
theorem first_eq {x : Branch × Addr} (hx : t.array.head? = some x) : first b = x.1.toInt := by
  obtain ⟨xs, hxs⟩ : ∃ xs, t.array = x :: xs := by
    cases harr : t.array with
    | nil =>
      rw [harr] at hx
      cases hx
    | cons y ys =>
      rw [harr, List.head?_cons] at hx
      cases hx
      exact ⟨ys, rfl⟩
  have hsorted : Sorted (x :: xs) := by
    rw [← hxs]
    exact h.sorted
  have hleast : ∀ k, Branches.isset t.array k = true → x.1.toInt ≤ k.toInt := by
    intro k hset
    obtain ⟨v, hv⟩ := (isset_iff _ k).1 hset
    rw [hxs] at hv
    rcases List.mem_cons.1 hv with rfl | hv
    . exact Int.le_refl _
    . exact Int.le_of_lt ((List.pairwise_cons.1 hsorted).1 _ hv)
  have hmem : Branches.isset t.array x.1 = true := by
    rw [isset_iff, hxs]
    exact ⟨x.2, List.mem_cons_self⟩
  rw [first, h.hasNone_eq]
  cases hn : t.hasNone with
  | true =>
    have hle := hleast none hn
    have hge := Branch.neg_one_le_toInt x.1
    rw [if_pos rfl, Branch.toInt_none] at *
    omega
  | false =>
    rw [if_neg Bool.false_ne_true]
    obtain ⟨d, hd⟩ : ∃ d, x.1 = some d := by
      cases hk : x.1 with
      | none =>
        have hset : t.hasNone = true := by
          rw [hk] at hmem
          exact hmem
        rw [hn] at hset
        cases hset
      | some d => exact ⟨d, rfl⟩
    rw [hd] at hmem hleast ⊢
    rcases firstByte_spec h.bitmap with ⟨_, hno⟩ | ⟨g, k, _, hjoin, hk, hm, hmin⟩
    . have hnot := hno d.toNat d.toNat_lt
      rw [members_toNat, hmem] at hnot
      cases hnot
    . have hle := hmin d.toNat d.toNat_lt (by rw [members_toNat]; exact hmem)
      obtain ⟨hset, hint⟩ := isset_ofNat hk hm
      have hge := hleast _ hset
      rw [hint, Branch.toInt_some] at hge
      rw [hjoin, Branch.toInt_some]
      omega

end Rep
end Layout
end Leaves
