import Leaves.Core.LayoutSpec

/-!
The functions that write a trie node to other memory: what they leave there is a node with the branches
of the source and the change.
-/

namespace Leaves

namespace Branches

variable {β : Type} {arr : List (Branch × β)} {key : Branch}

theorem getElem?_split {α : Type} (l r : List α) (x : α) (i : Nat) :
    (l ++ x :: r)[i]? =
      if i < l.length then
        (l ++ r)[i]?
      else if i = l.length then
        some x
      else
        (l ++ r)[i - 1]? := by
  rw [List.getElem?_append]
  split
  . next hlt => rw [List.getElem?_append_left hlt]
  . next hge =>
    split
    . next heq => rw [heq, Nat.sub_self, List.getElem?_cons_zero]
    . next hne =>
      obtain ⟨k, hk⟩ : ∃ k, i = l.length + (k + 1) := ⟨i - l.length - 1, by omega⟩
      rw [hk, Nat.add_sub_cancel_left, List.getElem?_cons_succ,
        List.getElem?_append_right (by omega)]
      congr 1
      omega

theorem getElem?_insert (h : Sorted arr) (hunset : isset arr key = false) (x : β) (i : Nat) :
    (insert arr key x)[i]? =
      if i < (below arr key).length then
        arr[i]?
      else if i = (below arr key).length then
        some (key, x)
      else
        arr[i - 1]? := by
  have hsplit := getElem?_split (below arr key) (above arr key) (key, x) i
  rwa [below_append_above h hunset] at hsplit

theorem getElem?_remove (h : Sorted arr) (hset : isset arr key = true) (i : Nat) :
    (remove arr key)[i]? = if i < (below arr key).length then arr[i]? else arr[i + 1]? := by
  obtain ⟨l, x, r, rfl⟩ := exists_split hset
  rw [remove_append_cons h, below_append_cons h, getElem?_split, getElem?_split]
  split
  . rfl
  . rw [if_neg (by omega), if_neg (by omega), Nat.add_sub_cancel]

theorem length_insert (h : Sorted arr) (hunset : isset arr key = false) (x : β) :
    (insert arr key x).length = arr.length + 1 := by
  have hlen := congrArg List.length (below_append_above h hunset)
  rw [List.length_append] at hlen
  rw [insert, List.length_append, List.length_cons]
  omega

theorem length_remove (h : Sorted arr) (hset : isset arr key = true) :
    (remove arr key).length + 1 = arr.length := by
  obtain ⟨l, x, r, rfl⟩ := exists_split hset
  rw [remove_append_cons h, List.length_append, List.length_append, List.length_cons]
  omega

theorem length_below_le (arr : List (Branch × β)) (key : Branch) :
    (below arr key).length ≤ arr.length := List.length_filter_le _ _

theorem length_below_lt (h : Sorted arr) (hset : isset arr key = true) :
    (below arr key).length < arr.length := by
  obtain ⟨l, x, r, rfl⟩ := exists_split hset
  rw [below_append_cons h, List.length_append, List.length_cons]
  omega

theorem below_none (arr : List (Branch × β)) : below arr none = [] := by
  rw [below, List.filter_eq_nil_iff]
  intro x _
  have hle := Branch.neg_one_le_toInt x.1
  rw [decide_eq_true_eq, Branch.toInt_none]
  omega

/-- The place of a new branch is counted in the same way after it was put in. -/
theorem below_insert (h : Sorted arr) (key : Branch) (x : β) :
    below (insert arr key x) key = below arr key := by
  apply below_append_cons
  exact sorted_insert h

theorem isset_none_insert_some (arr : List (Branch × β)) (c : UInt8) (x : β) :
    isset (insert arr (some c) x) none = isset arr none := by
  rw [isset_insert, decide_eq_false (by simp), Bool.false_or]

theorem isset_none_remove_some (arr : List (Branch × β)) (c : UInt8) :
    isset (remove arr (some c)) none = isset arr none := by
  rw [isset_remove, decide_eq_false (by simp), Bool.not_false, Bool.and_true]

/-- A branch behind all others. -/
theorem insert_of_lt {x : β} (h : ∀ y ∈ arr, y.1.toInt < key.toInt) :
    insert arr key x = arr ++ [(key, x)] := by
  have hbelow : below arr key = arr := by
    rw [below, List.filter_eq_self]
    intro y hy
    rw [decide_eq_true_eq]
    exact h y hy
  have habove : above arr key = [] := by
    rw [above, List.filter_eq_nil_iff]
    intro y hy
    rw [decide_eq_true_eq]
    exact Int.lt_asymm (h y hy)
  rw [insert, hbelow, habove]

/-- A branch in front of all others. -/
theorem insert_of_gt {x : β} (h : ∀ y ∈ arr, key.toInt < y.1.toInt) :
    insert arr key x = (key, x) :: arr := by
  have hbelow : below arr key = [] := by
    rw [below, List.filter_eq_nil_iff]
    intro y hy
    rw [decide_eq_true_eq]
    exact Int.lt_asymm (h y hy)
  have habove : above arr key = arr := by
    rw [above, List.filter_eq_self]
    intro y hy
    rw [decide_eq_true_eq]
    exact h y hy
  rw [insert, hbelow, habove, List.nil_append]

theorem modify_append_cons (l r : List (Branch × β)) (x y : β) :
    (l ++ (key, x) :: r).modify l.length (fun z => (z.1, y)) = l ++ (key, y) :: r := by
  induction l with
  | nil => rfl
  | cons z l ih =>
    rw [List.cons_append, List.length_cons, List.modify_succ_cons, ih]
    rfl

/-- The link of the branch that was put in. -/
theorem modify_insert (arr : List (Branch × β)) (key : Branch) (x y : β) :
    (insert arr key x).modify (below arr key).length (fun z => (z.1, y)) = insert arr key y := by
  exact modify_append_cons (below arr key) (above arr key) x y

end Branches

namespace Bitmap

open Branches

variable {β : Type} {arr : List (Branch × β)} {u : Nat} {w w' : Nat → Nat}

theorem nil (w : Nat → Nat) : Bitmap 0 w (members ([] : List (Branch × β))) := by
  constructor
  . decide
  . intro g _
    rw [Nat.zero_testBit]
    constructor
    . intro hbit
      cases hbit
    . intro ⟨_, _, hm⟩
      cases hm
  . intro i hi
    exact absurd hi (Nat.not_lt_zero i)
  . intro g _ hbit
    rw [Nat.zero_testBit] at hbit
    cases hbit

theorem index_zero (g : Nat) : Bits.index 0 g = 0 := by
  rw [Bits.index, Nat.zero_and]
  rfl

theorem insert_none (h : Bitmap u w (members arr)) (x : β)
    (hw : ∀ i, i < Bits.count u → w' i = w i) : Bitmap u w' (members (insert arr none x)) := by
  apply h.congr hw
  intro c _
  exact members_insert_none c x

theorem remove_none (h : Bitmap u w (members arr)) (hw : ∀ i, i < Bits.count u → w' i = w i) :
    Bitmap u w' (members (remove arr none)) := by
  apply h.congr hw
  intro c _
  exact members_remove_none c

/-- The lower bitmap of the group gets a bit. -/
theorem insert_old (h : Bitmap u w (members arr)) (c : UInt8) (x : β)
    (hup : u.testBit (c.toNat / 32) = true)
    (hw : ∀ i, i < Bits.count u → w' i =
      if i = Bits.index u (c.toNat / 32) then w i ||| 1 <<< (c.toNat % 32) else w i) :
    Bitmap u w' (members (insert arr (some c) x)) := by
  apply (h.addOld hup).congr
  . intro i hi
    rw [hw i hi]
    split
    . next heq => rw [heq, Function.update_self]
    . next hne => rw [Function.update_of_ne hne]
  . intro d hd
    exact members_insert hd c x

/-- The group gets a lower bitmap. -/
theorem insert_new (h : Bitmap u w (members arr)) (c : UInt8) (x : β)
    (hup : u.testBit (c.toNat / 32) = false)
    (hw : ∀ i, i < Bits.count u + 1 →
      w' i = insertWord w (Bits.index u (c.toNat / 32)) (1 <<< (c.toNat % 32)) i) :
    Bitmap (u ||| 1 <<< (c.toNat / 32)) w' (members (insert arr (some c) x)) := by
  have hc := c.toNat_lt
  apply (h.addNew hc hup).congr
  . intro i hi
    rw [count_or h.upper_lt (by omega) hup] at hi
    exact hw i hi
  . intro d hd
    exact members_insert hd c x

/-- The lower bitmap of the group loses a bit. -/
theorem remove_old (h : Bitmap u w (members arr)) (c : UInt8)
    (hset : Branches.isset arr (some c) = true)
    (hne : w (Bits.index u (c.toNat / 32)) &&& Bits.complement (1 <<< (c.toNat % 32)) ≠ 0)
    (hw : ∀ i, i < Bits.count u → w' i =
      if i = Bits.index u (c.toNat / 32) then
        w i &&& Bits.complement (1 <<< (c.toNat % 32))
      else
        w i) :
    Bitmap u w' (members (remove arr (some c))) := by
  have hm : members arr c.toNat = true := by
    rw [members_toNat]
    exact hset
  apply (h.removeOld c.toNat_lt hm hne).congr
  . intro i hi
    rw [hw i hi]
    split
    . next heq => rw [heq, Function.update_self]
    . next hne => rw [Function.update_of_ne hne]
  . intro d hd
    exact members_remove hd c

/-- The group loses its lower bitmap. -/
theorem remove_last (h : Bitmap u w (members arr)) (c : UInt8)
    (hset : Branches.isset arr (some c) = true)
    (hzero : w (Bits.index u (c.toNat / 32)) &&& Bits.complement (1 <<< (c.toNat % 32)) = 0)
    (hw : ∀ i, i + 1 < Bits.count u → w' i = eraseWord w (Bits.index u (c.toNat / 32)) i) :
    Bitmap (u &&& Bits.complement (1 <<< (c.toNat / 32))) w' (members (remove arr (some c))) := by
  have hm : members arr c.toNat = true := by
    rw [members_toNat]
    exact hset
  have hcount := count_and h.upper_lt (h.testBit_upper c.toNat_lt hm)
  apply (h.removeLast c.toNat_lt hm hzero).congr
  . intro i hi
    apply hw
    omega
  . intro d hd
    exact members_remove hd c

/-- A bitmap of one byte. -/
theorem single {v : Nat → Nat} (c : UInt8) (x : β) (hw : v 0 = 1 <<< (c.toNat % 32)) :
    Bitmap (1 <<< (c.toNat / 32)) v (members (insert [] (some c) x)) := by
  rw [← Nat.zero_or (1 <<< (c.toNat / 32))]
  apply (nil fun _ => 0).insert_new
  . exact Nat.zero_testBit _
  . intro i hi
    have hzero : i = 0 := Nat.lt_one_iff.1 hi
    rw [hzero, hw, index_zero]
    rfl

theorem count_single (c : UInt8) : Bits.count (1 <<< (c.toNat / 32)) = 1 := by
  have hc := c.toNat_lt
  rw [← Nat.zero_or (1 <<< (c.toNat / 32)), count_or (by decide) (by omega) (Nat.zero_testBit _)]
  rfl

theorem or_shift_of_set {g : Nat} (hup : u.testBit g = true) : u ||| 1 <<< g = u := by
  apply Nat.eq_of_testBit_eq
  intro i
  rw [testBit_or_shift]
  by_cases heq : g = i
  . rw [← heq, hup, Bool.true_or]
  . rw [decide_eq_false heq, Bool.or_false]

theorem index_single {g g' : Nat} (hle : g' ≤ g) (hg' : g' ≤ 32) :
    Bits.index (1 <<< g) g' = 0 := by
  rw [← Nat.zero_or (1 <<< g), index_or 0 hg', index_zero, if_neg (by omega)]

theorem index_single_of_lt {g g' : Nat} (hlt : g < g') (hg' : g' ≤ 32) :
    Bits.index (1 <<< g) g' = 1 := by
  rw [← Nat.zero_or (1 <<< g), index_or 0 hg', index_zero, if_pos ⟨hlt, Nat.zero_testBit g⟩]

theorem count_le_8 (h : u < 2 ^ 8) : Bits.count u ≤ 8 := by
  rw [count_upper h]
  exact Nat.count_le _

end Bitmap

namespace Layout

open Branches

theorem one_shift_lbit_lt (c : UInt8) : 1 <<< lbit c < 2 ^ 32 := by
  apply Bits.one_shift_lt
  rw [lbit_eq]
  exact Nat.mod_lt _ (by decide)

theorem prefixSize_spec (hashSize len : Nat) :
    prefixSize hashSize len % 4 = 0 ∧ 7 + hashSize + len ≤ prefixSize hashSize len ∧
      prefixSize hashSize len ≤ 7 + hashSize + len + 3 := by
  rw [prefixSize, HEADER_SIZE, TrieNode.HEADER_SIZE, padding]
  omega

theorem align_spec (s : Nat) : align s % 8 = 0 ∧ s ≤ align s ∧ align s ≤ s + 7 := by
  rw [align]
  omega

section SetFields

variable {b : Bytes} {al up len ls as : Nat}

theorem read_setFields {at_ size : Nat} (h : 6 ≤ at_) :
    (setFields b al up len ls as).read at_ size = b.read at_ size := by
  unfold setFields
  rw [Bytes.read_setU8, Bytes.read_setU8, Bytes.read_setU8, Bytes.read_setU8, Bytes.read_setU16]
  all_goals exact .inr (by omega)

theorem u32_setFields {at_ : Nat} (h : 6 ≤ at_) :
    (setFields b al up len ls as).u32 at_ = b.u32 at_ := congrArg ofLittle (read_setFields h)

theorem u64_setFields {at_ : Nat} (h : 6 ≤ at_) :
    (setFields b al up len ls as).u64 at_ = b.u64 at_ := congrArg ofLittle (read_setFields h)

theorem arrayLen_setFields (h : al < 2 ^ 16) : arrayLen (setFields b al up len ls as) = al := by
  unfold arrayLen Bytes.u16 setFields
  rw [Bytes.read_setU8, Bytes.read_setU8, Bytes.read_setU8, Bytes.read_setU8]
  . exact Bytes.u16_setU16 h
  all_goals exact .inl (by decide)

theorem upper_setFields (h : up < 256) : upper (setFields b al up len ls as) = up := by
  unfold upper setFields
  rw [Bytes.u8_eq, Bytes.read_setU8, Bytes.read_setU8, Bytes.read_setU8, ← Bytes.u8_eq]
  . exact Bytes.u8_setU8 h
  all_goals exact .inl (by decide)

theorem compressedLen_setFields (h : len < 256) :
    compressedLen (setFields b al up len ls as) = len := by
  unfold compressedLen setFields
  rw [Bytes.u8_eq, Bytes.read_setU8, Bytes.read_setU8, ← Bytes.u8_eq]
  . exact Bytes.u8_setU8 h
  all_goals exact .inl (by decide)

theorem lowerStart_setFields (h : ls % 4 = 0) (hlt : ls < 4 * 256) :
    lowerStart (setFields b al up len ls as) = ls := by
  have hoff : lowerOffset (setFields b al up len ls as) = ls / 4 := by
    unfold lowerOffset setFields
    rw [Bytes.u8_eq, Bytes.read_setU8, ← Bytes.u8_eq]
    . exact Bytes.u8_setU8 (by omega)
    . exact .inl (by decide)
  rw [lowerStart, hoff]
  omega

theorem arrayStart_setFields (h : as % 8 = 0) (hlt : as < 8 * 256) :
    arrayStart (setFields b al up len ls as) = as := by
  have hoff : arrayOffset (setFields b al up len ls as) = as / 8 := by
    unfold arrayOffset setFields
    exact Bytes.u8_setU8 (by omega)
  rw [arrayStart, hoff]
  omega

end SetFields

/-- The offsets of the header fit into a byte. -/
def Fits (hashSize : Nat) : Prop := prefixSize hashSize 255 < 4 * 256

section Body

variable {hashSize : Nat} {b : Bytes} {pre : Key} {up : Nat} {arr : List (Branch × Addr)}

/-- Where the links start behind so many lower bitmaps. -/
def linksAt (hashSize len n : Nat) : Nat := align (prefixSize hashSize len + n * 4)

/-- The prefix and the lower bitmaps of the branches are in the memory. -/
structure Body (hashSize : Nat) (b : Bytes) (pre : Key) (up : Nat) (arr : List (Branch × Addr)) :
    Prop where
  sorted : Sorted arr
  len_le : pre.length ≤ 255
  data : b.read (dataStart hashSize) pre.length = pre
  bitmap : Bitmap up (fun i => b.u32 (prefixSize hashSize pre.length + 4 * i)) (members arr)

/-- `_array_len` of the branches. -/
def lenField (arr : List (Branch × Addr)) : Nat :=
  arr.length + if Branches.isset arr none then 2 ^ 15 else 0

theorem prefixSize_lt (hfits : Fits hashSize) {len : Nat} (hlen : len ≤ 255) :
    prefixSize hashSize len < 4 * 256 := by
  have hle : prefixSize hashSize len ≤ prefixSize hashSize 255 := by
    unfold prefixSize padding
    apply Nat.mul_le_mul_right
    apply Nat.div_le_div_right
    omega
  exact Nat.lt_of_le_of_lt hle hfits

theorem linksAt_spec (hfits : Fits hashSize) {len n : Nat} (hlen : len ≤ 255) (hn : n ≤ 8) :
    linksAt hashSize len n % 8 = 0 ∧ prefixSize hashSize len + n * 4 ≤ linksAt hashSize len n ∧
      linksAt hashSize len n < 8 * 256 := by
  have hlt := prefixSize_lt hfits hlen
  have hspec := align_spec (prefixSize hashSize len + n * 4)
  unfold linksAt
  omega

/-- The header makes a node of it. -/
theorem Rep.of_body (hfits : Fits hashSize) (h : Body hashSize b pre up arr) {al ls as : Nat}
    (hal : al = lenField arr) (hls : ls = prefixSize hashSize pre.length)
    (has : as = linksAt hashSize pre.length (Bits.count up))
    (hlinks : ∀ i x, arr[i]? = some x → array (setFields b al up pre.length ls as) i = x.2) :
    Rep hashSize (setFields b al up pre.length ls as) ⟨pre, arr⟩ := by
  have hlen := length_le h.sorted
  have hpre := h.len_le
  have hup := h.bitmap.upper_lt
  have hspec := prefixSize_spec hashSize pre.length
  have hlt := prefixSize_lt hfits hpre
  have hat := linksAt_spec hfits hpre (Bitmap.count_le_8 hup)
  have hal' : al < 2 ^ 16 := by
    rw [hal, lenField]
    split <;> omega
  have hupper : upper (setFields b al up pre.length ls as) = up := upper_setFields hup
  have hstart : Layout.lowerStart (setFields b al up pre.length ls as) = ls := by
    rw [hls]
    exact lowerStart_setFields hspec.1 hlt
  have harray : Layout.arrayStart (setFields b al up pre.length ls as) = as := by
    rw [has]
    exact arrayStart_setFields hat.1 hat.2.2
  have hword : ∀ i, lower (setFields b al up pre.length ls as) i = b.u32 (ls + 4 * i) := by
    intro i
    rw [lower, hstart]
    exact u32_setFields (by omega)
  constructor
  . exact h.sorted
  . exact hpre
  . rw [arrayLen_setFields hal', hal]
    rfl
  . exact compressedLen_setFields (Nat.lt_succ_of_le hpre)
  . rw [Layout.compressed, compressedLen_setFields (Nat.lt_succ_of_le hpre), read_setFields]
    . exact h.data
    . exact Nat.le_add_right 6 hashSize
  . rw [hstart]
    exact hls
  . rw [harray, hstart, hupper, has, hls]
    rfl
  . rw [hupper]
    apply h.bitmap.congr
    . intro i _
      rw [hword, hls]
    . intro c _
      rfl
  . exact hlinks

theorem lenField_some (arr : List (Branch × Addr)) {c : UInt8} {x : Addr} (h : Sorted arr)
    (hunset : Branches.isset arr (some c) = false) :
    lenField (insert arr (some c) x) = lenField arr + 1 := by
  rw [lenField, lenField, length_insert h hunset, isset_none_insert_some]
  omega

theorem or_null_mask {n : Nat} (hn : n < 2 ^ 15) : n ||| NULL_MASK = n + 2 ^ 15 := by
  have hadd := Nat.two_pow_add_eq_or_of_lt hn 1
  rw [Nat.mul_one, Nat.or_comm] at hadd
  rw [NULL_MASK, Nat.one_shiftLeft, ← hadd, Nat.add_comm]

theorem lenField_none (arr : List (Branch × Addr)) {x : Addr} (h : Sorted arr)
    (hunset : Branches.isset arr none = false) :
    lenField (insert arr none x) = lenField arr + 1 ||| NULL_MASK := by
  have hlen := length_lt_of_unset h hunset
  have hset : Branches.isset (insert arr none x) none = true := by
    rw [isset_insert, decide_eq_true rfl, Bool.true_or]
  rw [lenField, lenField, length_insert h hunset, hset, hunset, if_pos rfl,
    if_neg Bool.false_ne_true, Nat.add_zero, or_null_mask (by omega)]

theorem lenField_remove_some (arr : List (Branch × Addr)) {c : UInt8} (h : Sorted arr)
    (hset : Branches.isset arr (some c) = true) :
    lenField (remove arr (some c)) = lenField arr - 1 := by
  have hlen := length_remove h hset
  rw [lenField, lenField, isset_none_remove_some]
  omega

theorem lenField_remove_none (arr : List (Branch × Addr)) (h : Sorted arr)
    (hset : Branches.isset arr none = true) :
    lenField (remove arr none) = (lenField arr - 1) &&& (NULL_MASK - 1) := by
  have hlen := length_remove h hset
  have hle := length_le h
  have hunset : Branches.isset (remove arr none) none = false := by
    rw [isset_remove, decide_eq_true rfl, Bool.not_true, Bool.and_false]
  have hmask := mask_count (n := arr.length - 1) (by omega) true
  rw [lenField, lenField, hset, hunset, if_neg Bool.false_ne_true, Nat.add_zero,
    Nat.sub_add_comm (by omega), hmask]
  omega

/-- The place of a branch in the array, from the bitmaps. -/
theorem branchIndex_of_bitmap {w : Nat → Nat} {c : UInt8} (hsorted : Sorted arr)
    (h : Bitmap up w (members arr)) (hup : up.testBit (c.toNat / 32) = true) :
    branchIndex w (Branches.isset arr none) (Bits.index up (ubit c)) (lbit c) =
      (below arr (some c)).length := by
  have hpos := h.position c.toNat_lt hup
  rw [length_below hsorted, branchIndex, ubit_eq, lbit_eq, ← hpos]
  change Bits.index _ _ + _ + _ = _
  omega

/-- A link of the node, as it is in the memory. -/
theorem array_setFields (hfits : Fits hashSize) {len n al up ls as i : Nat} (hlen : len ≤ 255)
    (hn : n ≤ 8) (has : as = linksAt hashSize len n) :
    array (setFields b al up len ls as) i = b.u64 (as + 8 * i) := by
  have hspec := prefixSize_spec hashSize len
  have hat := linksAt_spec hfits hlen hn
  rw [has, array, arrayStart_setFields hat.1 hat.2.2]
  exact u64_setFields (by omega)

end Body

section Create

variable {hashSize : Nat} (hfits : Fits hashSize) (dst : Bytes) {pre : Key} (hpre : pre.length ≤ 255)
include hfits hpre

theorem rep_create1 (key : Branch) :
    Rep hashSize (create1 hashSize dst pre key)
      ((TrieNode.create1 pre key).setLink 0 (array (create1 hashSize dst pre key) 0)) := by
  have hspec := prefixSize_spec hashSize pre.length
  generalize hy : array (create1 hashSize dst pre key) 0 = y
  have hlinks : ∀ i x, (insert [] key y)[i]? = some x →
      array (create1 hashSize dst pre key) i = x.2 := by
    intro i x hx
    match i with
    | 0 =>
      cases hx
      exact hy
    | i + 1 => cases hx
  change Rep hashSize _ ⟨pre, insert [] key y⟩
  unfold create1 at hlinks ⊢
  cases key with
  | none =>
    apply Rep.of_body hfits
    . constructor
      . exact sorted_insert List.Pairwise.nil
      . exact hpre
      . exact Bytes.read_write dst _ pre
      . apply (Bitmap.nil _).insert_none
        intro i _
        rfl
    . rw [lenField_none [] List.Pairwise.nil rfl]
      rfl
    . rfl
    . rfl
    . exact hlinks
  | some c =>
    have hbody : Body hashSize ((dst.write (dataStart hashSize) pre).setU32
        (prefixSize hashSize pre.length) (1 <<< lbit c)) pre (1 <<< ubit c)
        (insert [] (some c) y) := by
      constructor
      . exact sorted_insert List.Pairwise.nil
      . exact hpre
      . rw [Bytes.read_setU32, Bytes.read_write]
        unfold dataStart
        omega
      . rw [ubit_eq]
        apply Bitmap.single
        rw [Nat.mul_zero, Nat.add_zero, Bytes.u32_setU32, lbit_eq]
        exact one_shift_lbit_lt c
    apply Rep.of_body hfits hbody
    . rw [lenField_some [] List.Pairwise.nil rfl]
      rfl
    . rfl
    . rw [ubit_eq, Bitmap.count_single]
      rfl
    . exact hlinks

/-- Two branches in their order. -/
theorem rep_createOrdered {key1 : Branch} {c2 : UInt8}
    (hlt : key1.toInt < Branch.toInt (some c2)) :
    Rep hashSize (createOrdered hashSize dst pre key1 c2)
      ⟨pre, [(key1, array (createOrdered hashSize dst pre key1 c2) 0),
        (some c2, array (createOrdered hashSize dst pre key1 c2) 1)]⟩ := by
  have hspec := prefixSize_spec hashSize pre.length
  generalize hy1 : array (createOrdered hashSize dst pre key1 c2) 0 = y1
  generalize hy2 : array (createOrdered hashSize dst pre key1 c2) 1 = y2
  have hins : [(key1, y1), (some c2, y2)] = insert (insert [] key1 y1) (some c2) y2 := by
    rw [insert_of_lt]
    . rfl
    . intro z hz
      rw [List.mem_singleton.1 hz]
      exact hlt
  have hlinks : ∀ i x, (insert (insert [] key1 y1) (some c2) y2)[i]? = some x →
      array (createOrdered hashSize dst pre key1 c2) i = x.2 := by
    intro i x hx
    rw [← hins] at hx
    match i with
    | 0 =>
      cases hx
      exact hy1
    | 1 =>
      cases hx
      exact hy2
    | i + 2 => cases hx
  have hsorted : Sorted (insert [] key1 y1) := sorted_insert List.Pairwise.nil
  have hunset : Branches.isset (insert [] key1 y1) (some c2) = false := by
    rw [isset_insert, decide_eq_false, Bool.false_or]
    . rfl
    . intro heq
      rw [heq] at hlt
      exact Int.lt_irrefl _ hlt
  rw [hins]
  unfold createOrdered at hlinks ⊢
  cases key1 with
  | none =>
    have hbody : Body hashSize ((dst.write (dataStart hashSize) pre).setU32
        (prefixSize hashSize pre.length) (1 <<< lbit c2)) pre (1 <<< ubit c2)
        (insert (insert [] none y1) (some c2) y2) := by
      constructor
      . exact sorted_insert hsorted
      . exact hpre
      . rw [Bytes.read_setU32, Bytes.read_write]
        unfold dataStart
        omega
      . have hnone := (Bitmap.nil fun _ => 0).insert_none y1 fun _ _ => rfl
        rw [ubit_eq, ← Nat.zero_or (1 <<< (c2.toNat / 32))]
        apply hnone.insert_new
        . exact Nat.zero_testBit _
        . intro i hi
          have hzero : i = 0 := Nat.lt_one_iff.1 hi
          rw [hzero, Nat.mul_zero, Nat.add_zero, Bytes.u32_setU32, lbit_eq, Bitmap.index_zero]
          . rfl
          . exact one_shift_lbit_lt c2
    apply Rep.of_body hfits hbody
    . rw [lenField_some _ hsorted hunset, lenField_none [] List.Pairwise.nil rfl]
      rfl
    . rfl
    . rw [ubit_eq, Bitmap.count_single]
      rfl
    . exact hlinks
  | some c1 =>
    have hc1 := c1.toNat_lt
    have hc2 := c2.toNat_lt
    rw [Branch.toInt_some, Branch.toInt_some] at hlt
    have hal : 2 = lenField (insert (insert [] (some c1) y1) (some c2) y2) := by
      rw [lenField_some _ hsorted hunset, lenField_some [] List.Pairwise.nil rfl]
      rfl
    by_cases heq : c1.toNat / 32 = c2.toNat / 32
    . -- the bytes share a lower bitmap
      have hup : 1 <<< ubit c1 ||| 1 <<< ubit c2 = 1 <<< (c1.toNat / 32) := by
        rw [ubit_eq, ubit_eq, ← heq, Nat.or_self]
      have hbody : Body hashSize ((dst.write (dataStart hashSize) pre).setU32
          (prefixSize hashSize pre.length) (1 <<< lbit c1 ||| 1 <<< lbit c2)) pre
          (1 <<< (c1.toNat / 32)) (insert (insert [] (some c1) y1) (some c2) y2) := by
        constructor
        . exact sorted_insert hsorted
        . exact hpre
        . rw [Bytes.read_setU32, Bytes.read_write]
          unfold dataStart
          omega
        . apply (Bitmap.single (v := fun _ => 1 <<< (c1.toNat % 32)) c1 y1 rfl).insert_old
          . rw [Bits.testBit_one_shift, heq]
            exact decide_eq_true rfl
          . intro i hi
            rw [Bitmap.count_single] at hi
            have hzero : i = 0 := Nat.lt_one_iff.1 hi
            rw [hzero, Nat.mul_zero, Nat.add_zero, Bytes.u32_setU32, ← heq,
              Bitmap.index_single (Nat.le_refl _) (by omega), if_pos rfl, lbit_eq, lbit_eq]
            apply Nat.or_lt_two_pow
            . exact one_shift_lbit_lt c1
            . exact one_shift_lbit_lt c2
      dsimp only at hlinks ⊢
      rw [hup, if_pos (Bitmap.count_single c1)] at hlinks ⊢
      apply Rep.of_body hfits hbody hal
      . rfl
      . rw [Bitmap.count_single]
        rfl
      . exact hlinks
    . have hup : 1 <<< ubit c1 ||| 1 <<< ubit c2 =
          1 <<< (c1.toNat / 32) ||| 1 <<< (c2.toNat / 32) := by rw [ubit_eq, ubit_eq]
      have hnew : (1 <<< (c1.toNat / 32)).testBit (c2.toNat / 32) = false := by
        rw [Bits.testBit_one_shift]
        exact decide_eq_false heq
      have hsingle := Bitmap.single (v := fun _ => 1 <<< (c1.toNat % 32)) c1 y1 rfl
      have hcount : Bits.count (1 <<< (c1.toNat / 32) ||| 1 <<< (c2.toNat / 32)) = 2 := by
        rw [Bitmap.count_or hsingle.upper_lt (by omega) hnew, Bitmap.count_single]
      have hbody : Body hashSize (((dst.write (dataStart hashSize) pre).setU32
          (prefixSize hashSize pre.length) (1 <<< lbit c1)).setU32
          (prefixSize hashSize pre.length + 4) (1 <<< lbit c2)) pre
          (1 <<< (c1.toNat / 32) ||| 1 <<< (c2.toNat / 32))
          (insert (insert [] (some c1) y1) (some c2) y2) := by
        constructor
        . exact sorted_insert hsorted
        . exact hpre
        . rw [Bytes.read_setU32, Bytes.read_setU32, Bytes.read_write]
          all_goals
            unfold dataStart
            omega
        . apply hsingle.insert_new
          . exact hnew
          . intro i hi
            rw [Bitmap.count_single] at hi
            rw [Bitmap.index_single_of_lt (by omega) (by omega)]
            match i with
            | 0 =>
              rw [Bytes.u32_setU32_of_apart _ (.inl (by omega)), Nat.mul_zero, Nat.add_zero,
                Bytes.u32_setU32, lbit_eq]
              . rfl
              . exact one_shift_lbit_lt c1
            | 1 =>
              rw [Nat.mul_one, Bytes.u32_setU32, lbit_eq]
              . rfl
              . exact one_shift_lbit_lt c2
      dsimp only at hlinks ⊢
      rw [hup, hcount, if_neg (by decide)] at hlinks ⊢
      apply Rep.of_body hfits hbody hal
      . rfl
      . rw [hcount]
        rfl
      . exact hlinks

/-- The indexes are those of the keys. -/
theorem rep_create2 {key1 key2 : Branch} (hne : key1 ≠ key2) :
    let r := create2 hashSize dst pre key1 key2
    let t := (TrieNode.create2 pre key1 (array r.1 r.2.1) key2).setLink r.2.2 (array r.1 r.2.2)
    Rep hashSize r.1 t ∧ t.arrayIndex key1 = some r.2.1 ∧ t.arrayIndex key2 = some r.2.2 := by
  intro r t
  by_cases hlt : key2.toInt < key1.toInt
  . cases key1 with
    | none =>
      have hge := Branch.neg_one_le_toInt key2
      rw [Branch.toInt_none] at hlt
      omega
    | some c1 =>
      have hr : r = (createOrdered hashSize dst pre key2 c1, 1, 0) := if_pos hlt
      have hrep := rep_createOrdered hfits dst hpre hlt
      have ht : t = ⟨pre, [(key2, array r.1 0), (some c1, array r.1 1)]⟩ := by
        have hins : insert [(some c1, array r.1 1)] key2 0 =
            [(key2, 0), (some c1, array r.1 1)] := by
          apply insert_of_gt
          intro y hy
          rw [List.mem_singleton.1 hy]
          exact hlt
        simp only [t, hr] at hins ⊢
        rw [TrieNode.create2, TrieNode.createAdd, hins]
        rfl
      rw [ht, hr]
      have hsorted := hrep.sorted
      refine ⟨hrep, ?_, ?_⟩
      . exact arrayIndex_append_cons (l := [(key2, _)]) (r := []) hsorted
      . exact arrayIndex_append_cons (l := []) hsorted
  . have hlt' : key1.toInt < key2.toInt := by
      have hne' : key1.toInt ≠ key2.toInt := fun heq => hne (Branch.toInt_inj.1 heq)
      omega
    cases key2 with
    | none =>
      have hge := Branch.neg_one_le_toInt key1
      rw [Branch.toInt_none] at hlt'
      omega
    | some c2 =>
      have hr : r = (createOrdered hashSize dst pre key1 c2, 0, 1) := if_neg hlt
      have hrep := rep_createOrdered hfits dst hpre hlt'
      have ht : t = ⟨pre, [(key1, array r.1 0), (some c2, array r.1 1)]⟩ := by
        have hins : insert [(key1, array r.1 0)] (some c2) 0 =
            [(key1, array r.1 0), (some c2, 0)] := by
          apply insert_of_lt
          intro y hy
          rw [List.mem_singleton.1 hy]
          exact hlt'
        simp only [t, hr] at hins ⊢
        rw [TrieNode.create2, TrieNode.createAdd, hins]
        rfl
      rw [ht, hr]
      have hsorted := hrep.sorted
      refine ⟨hrep, ?_, ?_⟩
      . exact arrayIndex_append_cons (l := []) hsorted
      . exact arrayIndex_append_cons (l := [(key1, _)]) (r := []) hsorted

end Create

section Copy

variable {hashSize : Nat} (hfits : Fits hashSize) (dst : Bytes) {src : Bytes} {t : TrieNode}
  (h : Rep hashSize src t)
include hfits h

theorem rep_createPrefix {pre : Key} (hpre : pre.length ≤ 255) :
    Rep hashSize (createPrefix hashSize dst src pre) (t.createPrefix pre) := by
  have hspec := prefixSize_spec hashSize pre.length
  have hcount := Bitmap.count_le_8 h.bitmap.upper_lt
  have hat := linksAt_spec hfits hpre hcount
  have hlen := h.count_eq
  unfold linksAt at hat
  unfold createPrefix
  apply Rep.of_body hfits
  . constructor
    . exact h.sorted
    . exact hpre
    . rw [Bytes.read_memcpy_of_apart, Bytes.read_memcpy_of_apart, Bytes.read_write]
      all_goals
        unfold dataStart
        omega
    . apply h.bitmap.congr
      . intro i hi
        rw [Bytes.u32_memcpy_of_apart, Bytes.u32_memcpy (p := lowerStart src + 4 * i)]
        . rfl
        all_goals omega
      . intro c _
        rfl
  . exact h.arrayLen
  . rfl
  . rfl
  . intro i x hx
    have hi : i < t.array.length := List.getElem?_eq_some_iff.1 hx |>.1
    rw [TrieNode.count] at hlen
    rw [array_setFields hfits hpre hcount, Bytes.u64_memcpy (p := arrayStart src + 8 * i)]
    . exact h.links i x hx
    . omega
    . omega
    . omega
    . rfl

/-- The branches with a new one: its link is what is in the memory there. -/
theorem Rep.of_insert {b : Bytes} {key : Branch} {up al oidx ls as : Nat}
    (hunset : t.isset key = false) (hidx : oidx = t.addIndex key)
    (hdata : b.read (dataStart hashSize) t.len = t.compressed)
    (hbitmap : ∀ x, Bitmap up (fun i => b.u32 (prefixSize hashSize t.len + 4 * i))
      (members (insert t.array key x)))
    (hal : ∀ x, al = lenField (insert t.array key x)) (hls : ls = prefixSize hashSize t.len)
    (has : as = linksAt hashSize t.len (Bits.count up))
    (hbelow : ∀ i, i < oidx → b.u64 (as + 8 * i) = array src i)
    (habove : ∀ i, oidx ≤ i → i < t.count → b.u64 (as + 8 * (i + 1)) = array src i) :
    Rep hashSize (setFields b al up t.len ls as)
      ((t.createAdd key).setLink oidx (array (setFields b al up t.len ls as) oidx)) := by
  generalize hy : array (setFields b al up t.len ls as) oidx = y
  have hcount := Bitmap.count_le_8 (hbitmap 0).upper_lt
  have hadd : (t.createAdd key).setLink oidx y = ⟨t.compressed, insert t.array key y⟩ := by
    rw [hidx, TrieNode.setLink, TrieNode.createAdd, TrieNode.addIndex]
    simp only [modify_insert]
  rw [hadd]
  apply Rep.of_body hfits
  . constructor
    . exact sorted_insert h.sorted
    . exact h.len_le
    . exact hdata
    . exact hbitmap y
  . exact hal y
  . exact hls
  . exact has
  . intro i x hx
    rw [getElem?_insert h.sorted hunset, ← TrieNode.addIndex, ← hidx] at hx
    split at hx
    . next hlt =>
      change array (setFields b al up t.len ls as) i = x.2
      rw [array_setFields hfits h.len_le hcount has, hbelow i hlt]
      exact h.links i x hx
    . split at hx
      . next heq =>
        cases hx
        rw [heq]
        exact hy
      . next hne =>
        have hi : i - 1 < t.count := (List.getElem?_eq_some_iff.1 hx).1
        have hlink := habove (i - 1) (by omega) hi
        rw [Nat.sub_add_cancel (by omega)] at hlink
        change array (setFields b al up t.len ls as) i = x.2
        rw [array_setFields hfits h.len_le hcount has, hlink]
        exact h.links (i - 1) x hx

theorem rep_openArray {b : Bytes} {key : Branch} {up al oidx : Nat} (hunset : t.isset key = false)
    (hidx : oidx = t.addIndex key)
    (hdata : b.read (dataStart hashSize) t.len = t.compressed)
    (hbitmap : ∀ x, Bitmap up (fun i => b.u32 (prefixSize hashSize t.len + 4 * i))
      (members (insert t.array key x)))
    (hal : ∀ x, al = lenField (insert t.array key x)) :
    Rep hashSize (openArray hashSize src b al up oidx)
      ((t.createAdd key).setLink oidx (array (openArray hashSize src b al up oidx) oidx)) := by
  have hspec := prefixSize_spec hashSize t.len
  have hcount := Bitmap.count_le_8 (hbitmap 0).upper_lt
  have hat := linksAt_spec hfits h.len_le hcount
  have hlen := h.count_eq
  have hle : oidx ≤ t.count := by
    rw [hidx]
    exact length_below_le _ _
  unfold linksAt at hat
  unfold openArray
  rw [h.compressedLen]
  apply Rep.of_insert hfits h hunset hidx
  . rw [Bytes.read_memcpy_of_apart, Bytes.read_memcpy_of_apart]
    . exact hdata
    all_goals
      unfold dataStart
      omega
  . intro x
    apply (hbitmap x).congr
    . intro i hi
      rw [Bytes.u32_memcpy_of_apart, Bytes.u32_memcpy_of_apart]
      all_goals omega
    . intro c _
      rfl
  . exact hal
  . rfl
  . rfl
  . intro i hi
    rw [Bytes.u64_memcpy_of_apart, Bytes.u64_memcpy (p := arrayStart src + 8 * i)]
    . rfl
    all_goals omega
  . intro i hge hi
    rw [Bytes.u64_memcpy (p := arrayStart src + 8 * i)]
    . rfl
    all_goals omega

omit hfits in
/-- The lower bitmaps with the new byte give its index. -/
theorem branchIndex_insert {w : Nat → Nat} {c : UInt8} {up : Nat}
    (hbitmap : ∀ x, Bitmap up w (members (insert t.array (some c) x)))
    (hup : up.testBit (c.toNat / 32) = true) :
    branchIndex w (hasNone src) (Bits.index up (ubit c)) (lbit c) = t.addIndex (some c) := by
  have hidx := branchIndex_of_bitmap (sorted_insert h.sorted) (hbitmap 0) hup
  rw [isset_none_insert_some, below_insert h.sorted] at hidx
  rw [h.hasNone_eq]
  exact hidx

theorem rep_openByte {b : Bytes} {c : UInt8} {up : Nat} (hunset : t.isset (some c) = false)
    (hdata : b.read (dataStart hashSize) t.len = t.compressed)
    (hbitmap : ∀ x, Bitmap up (fun i => b.u32 (prefixSize hashSize t.len + 4 * i))
      (members (insert t.array (some c) x)))
    (hup : up.testBit (c.toNat / 32) = true) :
    let oidx := branchIndex (fun i => b.u32 (prefixSize hashSize t.len + 4 * i)) (hasNone src)
      (Bits.index up (ubit c)) (lbit c)
    let b' := openArray hashSize src b (arrayLen src + 1) up oidx
    Rep hashSize b' ((t.createAdd (some c)).setLink (t.addIndex (some c))
      (array b' (t.addIndex (some c)))) ∧ oidx = t.addIndex (some c) := by
  intro oidx b'
  have hidx : oidx = t.addIndex (some c) := branchIndex_insert h hbitmap hup
  refine ⟨?_, hidx⟩
  rw [← hidx]
  apply rep_openArray hfits h hunset hidx hdata hbitmap
  intro x
  have hal : arrayLen src = lenField t.array := h.arrayLen
  rw [lenField_some _ h.sorted hunset, hal]

theorem rep_createBranch {key : Branch} (hunset : t.isset key = false) :
    Rep hashSize (createBranch hashSize dst src key).1
        ((t.createAdd key).setLink (t.addIndex key)
          (array (createBranch hashSize dst src key).1 (t.addIndex key))) ∧
      (createBranch hashSize dst src key).2 = t.addIndex key := by
  have hspec := prefixSize_spec hashSize t.compressed.length
  have hal : arrayLen src = lenField t.array := h.arrayLen
  unfold createBranch
  rw [h.compressed, h.compressedLen, TrieNode.len]
  cases key with
  | none =>
    have hidx : t.addIndex none = 0 := by
      rw [TrieNode.addIndex, below_none]
      rfl
    rw [hidx]
    refine ⟨?_, rfl⟩
    apply rep_openArray hfits h hunset hidx.symm
    . rw [TrieNode.len, Bytes.read_memcpy_of_apart, Bytes.read_write]
      unfold dataStart
      omega
    . intro x
      apply h.bitmap.insert_none
      intro i hi
      rw [Bytes.u32_memcpy (p := lowerStart src + 4 * i)]
      . rfl
      . exact Nat.le_add_right _ _
      . rw [TrieNode.len]
        omega
      . rw [TrieNode.len]
        omega
    . intro x
      rw [lenField_none _ h.sorted hunset, hal]
  | some c =>
    have hc := c.toNat_lt
    have hmod : c.toNat % 32 < 32 := Nat.mod_lt _ (by decide)
    simp only
    rw [hasBit_upper]
    cases hup : (upper src).testBit (c.toNat / 32) with
    | true =>
      have hor : upper src ||| 1 <<< ubit c = upper src := by
        rw [ubit_eq]
        exact Bitmap.or_shift_of_set hup
      have hlt := Bitmap.index_lt h.bitmap.upper_lt hup
      rw [if_pos rfl, hor]
      apply rep_openByte hfits h hunset
      . rw [TrieNode.len, Bytes.read_setU32, Bytes.read_memcpy_of_apart, Bytes.read_write]
        all_goals
          unfold dataStart
          omega
      . intro x
        apply h.bitmap.insert_old c x hup
        have hcopy : ∀ i, i < Bits.count (upper src) →
            ((dst.write (dataStart hashSize) t.compressed).memcpy
              (prefixSize hashSize t.compressed.length) src (lowerStart src)
              (Bits.count (upper src) * 4)).u32 (prefixSize hashSize t.compressed.length + 4 * i) =
            lower src i := by
          intro i hi
          rw [Bytes.u32_memcpy (p := lowerStart src + 4 * i)]
          . rfl
          all_goals omega
        intro i hi
        rw [TrieNode.len]
        split
        . next heq =>
          rw [heq, ubit_eq, Bytes.u32_setU32, hcopy _ hlt, lbit_eq]
          apply Nat.or_lt_two_pow
          . exact Bytes.u32_lt _
          . exact one_shift_lbit_lt c
        . next hne =>
          rw [Bytes.u32_setU32_of_apart, hcopy i hi]
          rw [ubit_eq]
          omega
      . exact hup
    | false =>
      have hor : upper src ||| 1 <<< ubit c = upper src ||| 1 <<< (c.toNat / 32) := by rw [ubit_eq]
      have hidx : Bits.index (upper src ||| 1 <<< (c.toNat / 32)) (ubit c) =
          Bits.index (upper src) (c.toNat / 32) := by
        rw [ubit_eq, Bitmap.index_or _ (by omega), if_neg (by omega), Nat.add_zero]
      have hle := Bitmap.index_le_count h.bitmap.upper_lt (g := c.toNat / 32) (by omega)
      rw [if_neg Bool.false_ne_true, hor]
      apply rep_openByte hfits h hunset
      . rw [TrieNode.len, Bytes.read_setU32, Bytes.read_memcpy_of_apart, Bytes.read_memcpy_of_apart,
          Bytes.read_write]
        all_goals
          unfold dataStart
          omega
      . intro x
        apply h.bitmap.insert_new c x hup
        intro i hi
        rw [TrieNode.len, hidx, Bitmap.insertWord]
        split
        . next hlt =>
          rw [Bytes.u32_setU32_of_apart, Bytes.u32_memcpy_of_apart,
            Bytes.u32_memcpy (p := lowerStart src + 4 * i)]
          . rfl
          all_goals omega
        . split
          . next heq =>
            rw [heq, Bytes.u32_setU32 (one_shift_lbit_lt c), lbit_eq]
          . next hne =>
            rw [Bytes.u32_setU32_of_apart, Bytes.u32_memcpy (p := lowerStart src + 4 * (i - 1))]
            . rfl
            all_goals omega
      . rw [Bitmap.testBit_or_shift, decide_eq_true rfl, Bool.or_true]

/-- The links of the other branches. -/
theorem rep_closeArray {b : Bytes} {key : Branch} {up al oidx : Nat} (hset : t.isset key = true)
    (hidx : oidx = (below t.array key).length)
    (hdata : b.read (dataStart hashSize) t.len = t.compressed)
    (hbitmap : Bitmap up (fun i => b.u32 (prefixSize hashSize t.len + 4 * i))
      (members (remove t.array key)))
    (hal : al = lenField (remove t.array key)) :
    Rep hashSize (closeArray hashSize src b al up oidx) (t.createRemove key) := by
  have hpre : t.compressed.length ≤ 255 := h.len_le
  have hspec := prefixSize_spec hashSize t.compressed.length
  have hcount := Bitmap.count_le_8 hbitmap.upper_lt
  have hat := linksAt_spec hfits hpre hcount
  have hlen := h.count_eq
  have hlt : oidx < t.array.length := by
    rw [hidx]
    exact length_below_lt h.sorted hset
  have hrest := length_remove h.sorted hset
  unfold linksAt at hat
  unfold closeArray
  rw [h.compressedLen, TrieNode.len]
  rw [TrieNode.count] at hlen
  apply Rep.of_body hfits
  . constructor
    . exact h.sorted.filter _
    . exact hpre
    . rw [Bytes.read_memcpy_of_apart, Bytes.read_memcpy_of_apart]
      . exact hdata
      all_goals
        unfold dataStart
        omega
    . apply hbitmap.congr
      . intro i hi
        rw [Bytes.u32_memcpy_of_apart, Bytes.u32_memcpy_of_apart]
        . rfl
        all_goals omega
      . intro c _
        rfl
  . exact hal
  . rfl
  . rfl
  . intro i x hx
    have hi : i < (remove t.array key).length := (List.getElem?_eq_some_iff.1 hx).1
    rw [getElem?_remove h.sorted hset, ← hidx] at hx
    split at hx
    . next hlt =>
      rw [array_setFields hfits hpre hcount, Bytes.u64_memcpy_of_apart,
        Bytes.u64_memcpy (p := arrayStart src + 8 * i)]
      . exact h.links i x hx
      . omega
      . omega
      . omega
      . omega
      . rfl
    . next hge =>
      rw [array_setFields hfits hpre hcount, Bytes.u64_memcpy (p := arrayStart src + 8 * (i + 1))]
      . exact h.links (i + 1) x hx
      . omega
      . omega
      . omega
      . rfl

theorem rep_createRemove {key : Branch} (hset : t.isset key = true) :
    Rep hashSize (createRemove hashSize dst src key) (t.createRemove key) := by
  have hspec := prefixSize_spec hashSize t.compressed.length
  have hal : arrayLen src = lenField t.array := h.arrayLen
  unfold createRemove
  rw [h.compressed, h.compressedLen, TrieNode.len]
  cases key with
  | none =>
    apply rep_closeArray hfits h hset
    . rw [below_none]
      rfl
    . rw [TrieNode.len, Bytes.read_memcpy_of_apart, Bytes.read_write]
      unfold dataStart
      omega
    . apply h.bitmap.remove_none
      intro i hi
      rw [TrieNode.len, Bytes.u32_memcpy (p := lowerStart src + 4 * i)]
      . rfl
      all_goals omega
    . rw [lenField_remove_none _ h.sorted hset, hal]
  | some c =>
    have hc := c.toNat_lt
    have hmod : c.toNat % 32 < 32 := Nat.mod_lt _ (by decide)
    have hmem : members t.array c.toNat = true := by
      rw [members_toNat]
      exact hset
    have hup := h.bitmap.testBit_upper hc hmem
    have hlt := Bitmap.index_lt h.bitmap.upper_lt hup
    have hidx := h.branchIndex_eq hup
    have hal' : arrayLen src - 1 = lenField (remove t.array (some c)) := by
      rw [hal, lenField_remove_some _ h.sorted hset]
    simp only [ubit_eq, lbit_eq] at hidx ⊢
    split
    . next hzero =>
      have hcount := Bitmap.count_and h.bitmap.upper_lt hup
      apply rep_closeArray hfits h hset hidx
      . rw [TrieNode.len, Bytes.read_memcpy_of_apart, Bytes.read_memcpy_of_apart, Bytes.read_write]
        all_goals
          unfold dataStart
          omega
      . apply h.bitmap.remove_last c hset hzero
        intro i hi
        rw [TrieNode.len, Bitmap.eraseWord]
        split
        . next hlt' =>
          rw [Bytes.u32_memcpy_of_apart, Bytes.u32_memcpy (p := lowerStart src + 4 * i)]
          . rfl
          all_goals omega
        . next hge =>
          rw [Bytes.u32_memcpy (p := lowerStart src + 4 * (i + 1))]
          . rfl
          all_goals omega
      . exact hal'
    . next hne =>
      apply rep_closeArray hfits h hset hidx
      . rw [TrieNode.len, Bytes.read_setU32, Bytes.read_memcpy_of_apart, Bytes.read_write]
        all_goals
          unfold dataStart
          omega
      . apply h.bitmap.remove_old c hset hne
        intro i hi
        rw [TrieNode.len]
        split
        . next heq =>
          rw [heq, Bytes.u32_setU32]
          exact Nat.lt_of_le_of_lt Nat.and_le_left (Bytes.u32_lt _)
        . next hne' =>
          rw [Bytes.u32_setU32_of_apart, Bytes.u32_memcpy (p := lowerStart src + 4 * i)]
          . rfl
          all_goals omega
      . exact hal'

end Copy

end Layout
end Leaves
