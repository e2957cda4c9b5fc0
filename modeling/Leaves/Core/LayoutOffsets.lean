import Leaves.Core.LayoutIteration
import Leaves.Core.LayoutCreate

/-!
`create` from an array of offsets: the loop over the groups writes the lower bitmaps and the links of all
offsets that are set.
-/

namespace Leaves

namespace Branches

/-- `NONE` and the bytes, in their order. -/
def all : List Branch := none :: (List.range 256).map fun c => some (UInt8.ofNat c)

/-- The branches of the offsets that are set. -/
def ofOffsets (offsets : Branch → Addr) : List (Branch × Addr) :=
  (all.filter fun key => offsets key ≠ 0).map fun key => (key, offsets key)

theorem mem_all (key : Branch) : key ∈ all := by
  cases key with
  | none => exact List.mem_cons_self
  | some c =>
    apply List.mem_cons_of_mem
    rw [List.mem_map]
    exact ⟨c.toNat, List.mem_range.2 c.toNat_lt, by rw [UInt8.ofNat_toNat]⟩

theorem pairwise_all : all.Pairwise fun key key' => key.toInt < key'.toInt := by
  apply List.pairwise_cons.2
  constructor
  . intro key hkey
    obtain ⟨c, _, rfl⟩ := List.mem_map.1 hkey
    rw [Branch.toInt_none, Branch.toInt_some]
    omega
  . rw [List.pairwise_map]
    apply List.Pairwise.imp_of_mem _ List.pairwise_lt_range
    intro c d hc hd hlt
    rw [Branch.toInt_some, Branch.toInt_some, UInt8.toNat_ofNat_of_lt' (List.mem_range.1 hc),
      UInt8.toNat_ofNat_of_lt' (List.mem_range.1 hd)]
    omega

section Offsets

variable {β : Type} {arr : List (Branch × β)} (offsets : Branch → Addr)

theorem sorted_ofOffsets : Sorted (ofOffsets offsets) := by
  unfold Sorted ofOffsets
  rw [List.pairwise_map]
  exact pairwise_all.filter _

theorem mem_ofOffsets (x : Branch × Addr) :
    x ∈ ofOffsets offsets ↔ x.2 = offsets x.1 ∧ offsets x.1 ≠ 0 := by
  unfold ofOffsets
  rw [List.mem_map]
  constructor
  . intro ⟨key, hkey, heq⟩
    rw [List.mem_filter, decide_eq_true_eq] at hkey
    rw [← heq]
    exact ⟨rfl, hkey.2⟩
  . intro ⟨hx, hne⟩
    refine ⟨x.1, List.mem_filter.2 ⟨mem_all x.1, decide_eq_true hne⟩, ?_⟩
    rw [← hx]

theorem isset_ofOffsets (key : Branch) :
    isset (ofOffsets offsets) key = decide (offsets key ≠ 0) := by
  rw [Bool.eq_iff_iff, isset_iff, decide_eq_true_eq]
  constructor
  . intro ⟨x, hx⟩
    exact ((mem_ofOffsets offsets _).1 hx).2
  . intro hne
    exact ⟨offsets key, (mem_ofOffsets offsets _).2 ⟨rfl, hne⟩⟩

/-- A branch has as many branches in front of it as its index says. -/
theorem index_of_getElem? (h : Sorted arr) {i : Nat} {x : Branch × β} (hx : arr[i]? = some x) :
    i = (below arr x.1).length := by
  obtain ⟨hi, hget⟩ := List.getElem?_eq_some_iff.1 hx
  have harr : arr = arr.take i ++ x :: arr.drop (i + 1) := by
    rw [← hget, ← List.drop_eq_getElem_cons, List.take_append_drop]
  rw [harr] at h
  have hbelow := below_append_cons h
  rw [← harr] at hbelow
  rw [hbelow, List.length_take]
  exact (Nat.min_eq_left (Nat.le_of_lt hi)).symm

end Offsets

end Branches

namespace Layout

open Branches

variable (offsets : Branch → Addr)

/-- The bytes whose offset is set. -/
def isOffset (c : Nat) : Bool := offsets (some (UInt8.ofNat c)) ≠ 0

section Bits

variable (as base n : Nat) (hlink : ∀ key, offsets key < 2 ^ 64)
include hlink

/-- The first `k` rounds over a group: the links go to the array, the bits to the lower bitmap. -/
theorem offsetsBit_spec (b : Bytes) (k : Nat) :
    let r := (List.range k).foldl (offsetsBit offsets as base) (b, n, 0)
    r.2.1 = n + Nat.count (fun j => isOffset offsets (base + j) = true) k ∧
      (∀ j, r.2.2.testBit j = (decide (j < k) && isOffset offsets (base + j))) ∧
      (∀ j, j < k → isOffset offsets (base + j) = true →
        r.1.u64 (as + 8 * (n + Nat.count (fun j => isOffset offsets (base + j) = true) j)) =
          offsets (some (UInt8.ofNat (base + j)))) ∧
      ∀ at_ size, at_ + size ≤ as + 8 * n → r.1.read at_ size = b.read at_ size := by
  induction k with
  | zero =>
    refine ⟨rfl, ?_, ?_, ?_⟩
    . intro j
      rw [decide_eq_false (Nat.not_lt_zero j), Bool.false_and]
      exact Nat.zero_testBit j
    . intro j hj
      exact absurd hj (Nat.not_lt_zero j)
    . intro at_ size _
      rfl
  | succ k ih =>
    rw [List.range_succ, List.foldl_append, List.foldl_cons, List.foldl_nil]
    obtain ⟨hn, hbits, hlinks, hkeep⟩ := ih
    generalize (List.range k).foldl (offsetsBit offsets as base) (b, n, 0) = r at *
    have hbool : ∀ x, isOffset offsets x = decide (offsets (some (UInt8.ofNat x)) ≠ 0) :=
      fun _ => rfl
    simp only [offsetsBit]
    rw [Nat.count_succ]
    split
    . next hne =>
      have hset : isOffset offsets (base + k) = true := by
        rw [hbool, decide_eq_true hne]
      rw [if_pos hset, hn]
      refine ⟨rfl, ?_, ?_, ?_⟩
      . intro j
        simp only
        rw [Bitmap.testBit_or_shift, hbits j]
        rcases Nat.lt_trichotomy j k with hlt | heq | hgt
        . have hlt' : j < k + 1 := Nat.lt_succ_of_lt hlt
          have hne' : k ≠ j := Nat.ne_of_gt hlt
          simp [hlt, hlt', hne']
        . simp [heq, hset]
        . have hge : ¬j < k := Nat.not_lt_of_gt hgt
          have hge' : ¬j < k + 1 := by omega
          have hne' : k ≠ j := Nat.ne_of_lt hgt
          simp [hge, hge', hne']
      . intro j hj hoff
        simp only
        rcases Nat.lt_or_eq_of_le (Nat.le_of_lt_succ hj) with hlt | heq
        . have hcount := Nat.count_strict_mono
            (p := fun j => isOffset offsets (base + j) = true) hoff hlt
          rw [Bytes.u64, Bytes.read_setU64]
          . exact hlinks j hlt hoff
          . omega
        . rw [heq]
          exact Bytes.u64_setU64 (hlink _)
      . intro at_ size hle
        simp only
        rw [Bytes.read_setU64]
        . exact hkeep at_ size hle
        . omega
    . next heq =>
      have hunset : isOffset offsets (base + k) = false := by
        rw [hbool, decide_eq_false heq]
      rw [hunset, if_neg Bool.false_ne_true, Nat.add_zero]
      refine ⟨hn, ?_, ?_, hkeep⟩
      . intro j
        rw [hbits j]
        by_cases heq : j = k
        . rw [heq, hunset, Bool.and_false, Bool.and_false]
        . rw [decide_eq_decide.2 (by omega : j < k ↔ j < k + 1)]
      . intro j hj hoff
        apply hlinks j _ hoff
        apply Nat.lt_of_le_of_ne (Nat.le_of_lt_succ hj)
        intro heq
        rw [heq, hunset] at hoff
        cases hoff

end Bits

section Loop

variable {u l a q : Nat} (hlink : ∀ key, offsets key < 2 ^ 64) (hu : u < 2 ^ 8)
  (hup : ∀ g, g < 8 → (u.testBit g = true ↔ ∃ j, j < 32 ∧ isOffset offsets (32 * g + j) = true))
  (has : l + 4 * Bits.count u ≤ a)
include hlink hu hup has

/-- The groups from `low` on, behind the links of the others. -/
theorem offsetsLoop_spec (n remaining low : Nat) (b : Bytes) (hlow : low ≤ 8) (hn : 8 ≤ n + low)
    (hrem : ∀ g, remaining.testBit g = (u.testBit g && decide (low ≤ g))) :
    let r := offsetsLoop offsets u l a n remaining
      (b, q + Nat.count (fun c => isOffset offsets c = true) (32 * low))
    r.2 = q + Nat.count (fun c => isOffset offsets c = true) 256 ∧
      (∀ g, low ≤ g → g < 8 → u.testBit g = true → ∀ j,
        (r.1.u32 (l + 4 * Bits.index u g)).testBit j =
          (decide (j < 32) && isOffset offsets (32 * g + j))) ∧
      (∀ c, 32 * low ≤ c → c < 256 → isOffset offsets c = true →
        r.1.u64 (a + 8 * (q + Nat.count (fun c => isOffset offsets c = true) c)) =
          offsets (some (UInt8.ofNat c))) ∧
      (∀ at_ size, at_ + size ≤ l + 4 * Bits.index u low → r.1.read at_ size = b.read at_ size) ∧
      ∀ at_ size, a ≤ at_ →
        at_ + size ≤ a + 8 * (q + Nat.count (fun c => isOffset offsets c = true) (32 * low)) →
          r.1.read at_ size = b.read at_ size := by
  have hm : ∀ c, c < 256 → isOffset offsets c = true → u.testBit (c / 32) = true := by
    intro c hc hoff
    apply (hup (c / 32) (by omega)).2
    exact ⟨c % 32, Nat.mod_lt _ (by decide), by rw [Nat.div_add_mod]; exact hoff⟩
  have hstop : ∀ low, low ≤ 8 → (∀ c, 32 * low ≤ c → c < 256 → isOffset offsets c = false) →
      Nat.count (fun c => isOffset offsets c = true) (32 * low) =
        Nat.count (fun c => isOffset offsets c = true) 256 := by
    intro low hlow hno
    obtain ⟨d, hd⟩ := Nat.exists_eq_add_of_le (by omega : 32 * low ≤ 256)
    rw [hd, Nat.count_add]
    symm
    apply Nat.add_eq_left.2
    rw [Nat.count_iff_forall_not]
    intro k hk
    rw [hno (32 * low + k) (by omega) (by omega)]
    exact Bool.false_ne_true
  induction n generalizing remaining low b with
  | zero =>
    have hno := none_of_no_group hm hrem (no_group_of_le hu hrem (by omega))
    refine ⟨?_, ?_, ?_, ?_, ?_⟩
    . rw [← hstop low hlow hno]
      rfl
    . intro g hle hg
      omega
    . intro c hle hc hoff
      rw [hno c hle hc] at hoff
      cases hoff
    . intro at_ size _
      rfl
    . intro at_ size _ _
      rfl
  | succ n ih =>
    rw [offsetsLoop]
    by_cases hne : remaining = 0
    . rw [if_pos hne]
      have hzero : ∀ g, remaining.testBit g = false := by
        intro g
        rw [hne, Nat.zero_testBit]
      have hno := none_of_no_group hm hrem hzero
      refine ⟨?_, ?_, ?_, ?_, ?_⟩
      . rw [← hstop low hlow hno]
      . intro g hle hg hbit
        have hrem := hrem g
        rw [hzero, hbit, decide_eq_true hle] at hrem
        cases hrem
      . intro c hle hc hoff
        rw [hno c hle hc] at hoff
        cases hoff
      . intro at_ size _
        rfl
      . intro at_ size _ _
        rfl
    . rw [if_neg hne]
      obtain ⟨g, hgrp, hle, hg, hbit, hindex, hgapm, hcount, hrem'⟩ :=
        first_group hu hm hrem hlow hne
      have hbase : g <<< 5 = 32 * g := by rw [Nat.shiftLeft_eq, Nat.mul_comm]
      rw [hgrp, ← hcount, ← hindex]
      simp only [hbase]
      obtain ⟨hn', hbits, hlinks, hkeep⟩ := offsetsBit_spec offsets a (32 * g)
        (q + Nat.count (fun c => isOffset offsets c = true) (32 * g)) hlink b 32
      generalize (List.range 32).foldl (offsetsBit offsets a (32 * g))
        (b, q + Nat.count (fun c => isOffset offsets c = true) (32 * g), 0) = r at *
      have hnext : r.2.1 = q + Nat.count (fun c => isOffset offsets c = true) (32 * (g + 1)) := by
        rw [hn', Nat.mul_succ, Nat.count_add, Nat.add_assoc]
      have hidx : Bits.index u (g + 1) = Bits.index u g + 1 := by
        rw [Bitmap.index_succ (by omega), if_pos hbit]
      have hidxlt := Bitmap.index_lt hu hbit
      have hword : r.2.2 < 2 ^ 32 := by
        apply Nat.lt_pow_two_of_testBit
        intro j hj
        rw [hbits j, decide_eq_false (by omega), Bool.false_and]
      have hgroup : ∀ j, j < 32 → Nat.count (fun c => isOffset offsets c = true) (32 * g) +
          Nat.count (fun j => isOffset offsets (32 * g + j) = true) j =
            Nat.count (fun c => isOffset offsets c = true) (32 * g + j) := by
        intro j _
        rw [Nat.count_add]
      rw [hnext]
      obtain ⟨htotal, hwords', hlinks', hkeep', hkeeplinks'⟩ := ih (Bits.clearFirst remaining) (g + 1)
        (r.1.setU32 (l + 4 * Bits.index u g) r.2.2) hg (by omega) hrem'
      refine ⟨htotal, ?_, ?_, ?_, ?_⟩
      . intro g' hle' hg' hbit' j
        rcases Nat.lt_trichotomy g' g with hlt | rfl | hgt
        . obtain ⟨k, hk, hoff⟩ := (hup g' hg').1 hbit'
          rw [hgapm (32 * g' + k) (by omega) (by omega)] at hoff
          cases hoff
        . rw [Bytes.u32, hkeep' _ 4 (by omega)]
          rw [← Bytes.u32, Bytes.u32_setU32 hword]
          exact hbits j
        . exact hwords' g' hgt hg' hbit' j
      . intro c hle' hc hoff
        by_cases hlt : c < 32 * (g + 1)
        . have hge : 32 * g ≤ c := by
            apply Nat.le_of_not_lt
            intro hlt'
            rw [hgapm c hle' hlt'] at hoff
            cases hoff
          obtain ⟨j, rfl⟩ := Nat.exists_eq_add_of_le hge
          have hmono := Nat.count_strict_mono (p := fun c => isOffset offsets c = true) hoff hlt
          have hlink := hlinks j (by omega) hoff
          rw [Nat.add_assoc, hgroup j (by omega)] at hlink
          rw [Bytes.u64, hkeeplinks' _ 8 (by omega) (by omega), Bytes.read_setU32]
          . exact hlink
          . omega
        . exact hlinks' c (by omega) hc hoff
      . intro at_ size hle'
        rw [hkeep' at_ size (by omega), Bytes.read_setU32 _ (by omega)]
        apply hkeep
        omega
      . intro at_ size hge hle'
        have hmono := Nat.count_monotone (fun c => isOffset offsets c = true)
          (by omega : 32 * g ≤ 32 * (g + 1))
        rw [hkeeplinks' at_ size hge (by omega), Bytes.read_setU32 _ (by omega)]
        apply hkeep
        omega

end Loop

section Create

variable {hashSize : Nat} (hfits : Fits hashSize) {pre : Key} (hpre : pre.length ≤ 255) {u : Nat}
  (hlink : ∀ key, offsets key < 2 ^ 64) (hu : u < 2 ^ 8)
  (hup : ∀ g, g < 8 → (u.testBit g = true ↔ ∃ j, j < 32 ∧ isOffset offsets (32 * g + j) = true))
include hfits hpre hlink hu hup

/-- The loop on memory that has the prefix and the link of `NONE`. -/
theorem rep_offsetsLoop {b : Bytes} (hdata : b.read (dataStart hashSize) pre.length = pre)
    (hnone : offsets none ≠ 0 →
      b.u64 (linksAt hashSize pre.length (Bits.count u)) = offsets none) :
    let arr := ofOffsets offsets
    let r := offsetsLoop offsets u (prefixSize hashSize pre.length)
      (linksAt hashSize pre.length (Bits.count u)) 8 u (b, (Branches.isset arr none).toNat)
    r.2 = arr.length ∧ Rep hashSize (setFields r.1 (lenField arr) u pre.length
      (prefixSize hashSize pre.length) (linksAt hashSize pre.length (Bits.count u))) ⟨pre, arr⟩ := by
  have hspec := prefixSize_spec hashSize pre.length
  have hat := linksAt_spec hfits hpre (Bitmap.count_le_8 hu)
  have hsorted := sorted_ofOffsets offsets
  have hmem : ∀ c, members (ofOffsets offsets) c = isOffset offsets c := by
    intro c
    exact isset_ofOffsets offsets _
  have hloop := offsetsLoop_spec (l := prefixSize hashSize pre.length)
    (a := linksAt hashSize pre.length (Bits.count u))
    (q := (Branches.isset (ofOffsets offsets) none).toNat) offsets hlink hu hup (by omega) 8 u 0 b
    (Nat.zero_le 8) (Nat.le_refl 8) (by intro g; rw [decide_eq_true (Nat.zero_le g), Bool.and_true])
  rw [Nat.mul_zero, Nat.count_zero, Nat.add_zero] at hloop
  intro arr r
  obtain ⟨htotal, hwords, hlinks, hkeep, hkeeplinks⟩ := hloop
  have hindex : Bits.index u 0 = 0 := by
    rw [Bits.index_eq _ (Nat.zero_le _), Nat.count_zero]
  have hlen : r.2 = arr.length := by
    rw [length_eq hsorted, htotal]
    simp only [hmem]
  refine ⟨hlen, ?_⟩
  apply Rep.of_body hfits
  . constructor
    . exact hsorted
    . exact hpre
    . rw [hkeep]
      . exact hdata
      . unfold dataStart
        omega
    . constructor
      . exact hu
      . intro g hg
        simp only [hmem, arr]
        exact hup g hg
      . intro i _
        exact Bytes.u32_lt _
      . intro g hg hbit j hj
        rw [hwords g (Nat.zero_le g) hg hbit j, decide_eq_true hj, Bool.true_and]
        exact (hmem _).symm
  . rfl
  . rfl
  . rfl
  . intro i x hx
    rw [array_setFields hfits hpre (Bitmap.count_le_8 hu) rfl]
    have hidx := index_of_getElem? hsorted hx
    obtain ⟨hx2, hne⟩ := (mem_ofOffsets offsets x).1 (List.mem_of_getElem? hx)
    rw [hx2]
    match x, hidx, hne with
    | (none, _), hidx, hne =>
      have hset : Branches.isset (ofOffsets offsets) none = true := by
        rw [isset_ofOffsets]
        exact decide_eq_true hne
      rw [hidx, below_none, List.length_nil, Nat.mul_zero, Nat.add_zero, Bytes.u64, hkeeplinks]
      . exact hnone hne
      . exact Nat.le_refl _
      . rw [hset]
        exact Nat.le_refl _
    | (some c, _), hidx, hne =>
      have hoff : isOffset offsets c.toNat = true := by
        rw [← hmem, members_toNat, isset_ofOffsets]
        exact decide_eq_true hne
      have hlink := hlinks c.toNat (Nat.zero_le _) c.toNat_lt hoff
      rw [UInt8.ofNat_toNat] at hlink
      rw [hidx, length_below hsorted]
      simp only [hmem]
      exact hlink

theorem rep_createOffsets (dst : Bytes) :
    Rep hashSize (createOffsets hashSize offsets dst pre u) ⟨pre, ofOffsets offsets⟩ := by
  have hspec := prefixSize_spec hashSize pre.length
  have hat := linksAt_spec hfits hpre (Bitmap.count_le_8 hu)
  have hlen := length_le (sorted_ofOffsets offsets)
  have hread : ∀ data, ((dst.write (dataStart hashSize) pre).write (prefixSize hashSize pre.length)
      data).read (dataStart hashSize) pre.length = pre := by
    intro data
    rw [Bytes.read_write_of_apart, Bytes.read_write]
    unfold dataStart
    omega
  have hset := isset_ofOffsets offsets none
  unfold createOffsets
  simp only
  split
  . next hne =>
    rw [decide_eq_true hne] at hset
    have hdata : (((dst.write (dataStart hashSize) pre).write (prefixSize hashSize pre.length)
        (List.replicate (Bits.count u * 4) 0)).setU64 (linksAt hashSize pre.length (Bits.count u))
        (offsets none)).read (dataStart hashSize) pre.length = pre := by
      rw [Bytes.read_setU64]
      . exact hread _
      . unfold dataStart
        omega
    obtain ⟨htotal, hrep⟩ := rep_offsetsLoop offsets hfits hpre hlink hu hup hdata
      (fun _ => Bytes.u64_setU64 (hlink none))
    rw [hset] at htotal hrep
    have hal : lenField (ofOffsets offsets) = (ofOffsets offsets).length ||| NULL_MASK := by
      rw [lenField, hset, if_pos rfl, or_null_mask (by omega)]
    rw [hal, ← htotal] at hrep
    exact hrep
  . next heq =>
    rw [decide_eq_false heq] at hset
    obtain ⟨htotal, hrep⟩ := rep_offsetsLoop offsets hfits hpre hlink hu hup
      (hread (List.replicate (Bits.count u * 4) 0)) (fun hne => absurd hne heq)
    rw [hset] at htotal hrep
    have hal : lenField (ofOffsets offsets) = (ofOffsets offsets).length := by
      rw [lenField, hset, if_neg Bool.false_ne_true, Nat.add_zero]
    rw [hal, ← htotal] at hrep
    exact hrep

end Create

end Layout
end Leaves
