import Leaves.Core.LayoutCreate

/-!
`insert_branch` and the other changes in place. The links move before the lower bitmaps grow into them,
and behind them where a gap takes the new one.
-/

namespace Leaves
namespace Layout

open Branches

/-- The header is what it was but for the number of branches. -/
theorem setU16_eq_setFields {z : Bytes} {up len ls as : Nat} (hup : upper z = up)
    (hlen : compressedLen z = len) (hls : lowerStart z = ls) (has : arrayStart z = as) (al : Nat) :
    z.setU16 0 al = setFields z al up len ls as := by
  have hkeep : ∀ pos, 2 ≤ pos → (z.setU16 0 al).u8 pos = z.u8 pos := by
    intro pos hpos
    rw [Bytes.u8_eq, Bytes.u8_eq, Bytes.read_setU16]
    exact .inr hpos
  have hupper : (z.setU16 0 al).setU8 2 up = z.setU16 0 al := by
    apply Bytes.setU8_self
    rw [hkeep 2 (by decide)]
    exact hup
  have hlength : (z.setU16 0 al).setU8 3 len = z.setU16 0 al := by
    apply Bytes.setU8_self
    rw [hkeep 3 (by decide)]
    exact hlen
  have hlower : (z.setU16 0 al).setU8 4 (ls / 4) = z.setU16 0 al := by
    apply Bytes.setU8_self
    rw [hkeep 4 (by decide), ← hls, lowerStart, Nat.mul_div_cancel _ (by decide)]
    rfl
  have harray : (z.setU16 0 al).setU8 5 (as / 8) = z.setU16 0 al := by
    apply Bytes.setU8_self
    rw [hkeep 5 (by decide), ← has, arrayStart, Nat.mul_div_cancel _ (by decide)]
    rfl
  rw [setFields, hupper, hlength, hlower, harray]

/-- The fields of the header without the number of branches. -/
theorem header_congr {z b : Bytes} (h : ∀ i, 2 ≤ i → i < 6 → z i = b i) :
    upper z = upper b ∧ compressedLen z = compressedLen b ∧ lowerStart z = lowerStart b ∧
      arrayStart z = arrayStart b := by
  have hbyte : ∀ i, 2 ≤ i → i < 6 → z.u8 i = b.u8 i := by
    intro i hge hlt
    exact congrArg UInt8.toNat (h i hge hlt)
  refine ⟨hbyte 2 (by decide) (by decide), hbyte 3 (by decide) (by decide), ?_, ?_⟩
  . unfold lowerStart
    apply congrArg (· * 4)
    exact hbyte 4 (by decide) (by decide)
  . unfold arrayStart
    apply congrArg (· * 8)
    exact hbyte 5 (by decide) (by decide)

/-- The memory with a lower bitmap `x` more, which is number `l` of then `k + 1`, and an open slot among
the `n` links. -/
structure Grown (b z : Bytes) (ls l k x oldAs newAs oidx n : Nat) : Prop where
  front : ∀ i, i < ls → z i = b i
  words : ∀ i, i < k + 1 →
    z.u32 (ls + 4 * i) = Bitmap.insertWord (fun i => b.u32 (ls + 4 * i)) l x i
  below : ∀ i, i < oidx → z.u64 (newAs + 8 * i) = b.u64 (oldAs + 8 * i)
  above : ∀ i, oidx ≤ i → i < n → z.u64 (newAs + 8 * (i + 1)) = b.u64 (oldAs + 8 * i)

section Grow

variable (b : Bytes) {ls l k x oldAs newAs oidx n : Nat} (hl : l ≤ k) (hx : x < 2 ^ 32)
  (hle : oidx ≤ n)
include hl hx hle

/-- The links move by one, out of the way of the lower bitmaps: those behind the slot first. -/
theorem grown_shift (hold : ls + 4 * k ≤ oldAs) (hshift : newAs = oldAs + 8) :
    Grown b
      ((((b.memmove (newAs + (oidx + 1) * 8) (oldAs + oidx * 8) ((n - oidx) * 8)).memmove newAs oldAs
          (oidx * 8)).memmove (ls + 4 * (l + 1)) (ls + 4 * l) ((k - l) * 4)).setU32 (ls + 4 * l) x)
      ls l k x oldAs newAs oidx n := by
  unfold Bytes.memmove
  constructor
  . intro i hi
    rw [Bytes.setU32, Bytes.write_of_lt, Bytes.memcpy_of_lt, Bytes.memcpy_of_lt, Bytes.memcpy_of_lt]
    all_goals omega
  . intro i hi
    rw [Bitmap.insertWord]
    split
    . next hlt =>
      rw [Bytes.u32_setU32_of_apart, Bytes.u32_memcpy_of_apart, Bytes.u32_memcpy_of_apart,
        Bytes.u32_memcpy_of_apart]
      all_goals omega
    . split
      . next heq => rw [heq, Bytes.u32_setU32 hx]
      . next hne =>
        rw [Bytes.u32_setU32_of_apart, Bytes.u32_memcpy (p := ls + 4 * (i - 1)),
          Bytes.u32_memcpy_of_apart, Bytes.u32_memcpy_of_apart]
        all_goals omega
  . intro i hi
    rw [Bytes.u64_setU32_of_apart, Bytes.u64_memcpy_of_apart, Bytes.u64_memcpy (p := oldAs + 8 * i),
      Bytes.u64_memcpy_of_apart]
    all_goals omega
  . intro i hge hi
    rw [Bytes.u64_setU32_of_apart, Bytes.u64_memcpy_of_apart, Bytes.u64_memcpy_of_apart,
      Bytes.u64_memcpy (p := oldAs + 8 * i)]
    all_goals omega

/-- A gap in front of the links takes the lower bitmap. -/
theorem grown_gap (hnew : ls + 4 * (k + 1) ≤ newAs) (hgap : newAs = oldAs) :
    Grown b
      (((b.memmove (ls + 4 * (l + 1)) (ls + 4 * l) ((k - l) * 4)).setU32 (ls + 4 * l) x).memmove
        (oldAs + (oidx + 1) * 8) (oldAs + oidx * 8) ((n - oidx) * 8))
      ls l k x oldAs newAs oidx n := by
  unfold Bytes.memmove
  constructor
  . intro i hi
    rw [Bytes.memcpy_of_lt, Bytes.setU32, Bytes.write_of_lt, Bytes.memcpy_of_lt]
    all_goals omega
  . intro i hi
    rw [Bitmap.insertWord]
    split
    . next hlt =>
      rw [Bytes.u32_memcpy_of_apart, Bytes.u32_setU32_of_apart, Bytes.u32_memcpy_of_apart]
      all_goals omega
    . split
      . next heq =>
        rw [heq, Bytes.u32_memcpy_of_apart, Bytes.u32_setU32 hx]
        omega
      . next hne =>
        rw [Bytes.u32_memcpy_of_apart, Bytes.u32_setU32_of_apart,
          Bytes.u32_memcpy (p := ls + 4 * (i - 1))]
        all_goals omega
  . intro i hi
    rw [Bytes.u64_memcpy_of_apart, Bytes.u64_setU32_of_apart, Bytes.u64_memcpy_of_apart, hgap]
    all_goals omega
  . intro i hge hi
    rw [Bytes.u64_memcpy (p := oldAs + 8 * i), Bytes.u64_setU32_of_apart, Bytes.u64_memcpy_of_apart]
    all_goals omega

end Grow

section Insert

variable {hashSize : Nat} (hfits : Fits hashSize) {b : Bytes} {t : TrieNode}
  (h : Rep hashSize b t)
include h

/-- The links lie where the bitmaps of the node end. -/
theorem Rep.starts : Layout.lowerStart b = prefixSize hashSize t.len ∧
    Layout.arrayStart b = linksAt hashSize t.len (Bits.count (upper b)) := by
  refine ⟨h.lowerStart, ?_⟩
  rw [h.arrayStart, h.lowerStart]
  rfl

include hfits

theorem rep_insertNone (hunset : t.isset none = false) :
    Rep hashSize (insertBranch b none).1 ((t.createAdd none).setLink (t.addIndex none)
        (array (insertBranch b none).1 (t.addIndex none))) ∧
      (insertBranch b none).2 = t.addIndex none := by
  have hspec := prefixSize_spec hashSize t.len
  have hcount := Bitmap.count_le_8 h.bitmap.upper_lt
  have hat := linksAt_spec hfits h.len_le hcount
  obtain ⟨hls, has⟩ := h.starts
  have hlen := h.count_eq
  have hidx : t.addIndex none = 0 := by
    rw [TrieNode.addIndex, below_none]
    rfl
  rw [hidx]
  refine ⟨?_, rfl⟩
  obtain ⟨hup, hcl, hlow, harr⟩ :=
      header_congr (z := b.memmove (arrayStart b + 8) (arrayStart b) (count b * 8)) (b := b) (by
    intro i _ hi
    apply Bytes.memcpy_of_lt
    omega)
  rw [h.compressedLen] at hcl
  simp only [insertBranch]
  rw [setU16_eq_setFields hup hcl hlow harr]
  unfold Bytes.memmove
  apply Rep.of_insert hfits h hunset hidx.symm
  . rw [Bytes.read_memcpy_of_apart]
    . have hdata := h.compressed
      rwa [Layout.compressed, h.compressedLen] at hdata
    . unfold dataStart
      omega
  . intro x
    apply h.bitmap.insert_none
    intro i hi
    rw [Bytes.u32_memcpy_of_apart, ← hls]
    . rfl
    . omega
  . intro x
    rw [lenField_none _ h.sorted hunset, h.arrayLen]
    rfl
  . exact hls
  . exact has
  . intro i hi
    exact absurd hi (Nat.not_lt_zero i)
  . intro i _ hi
    rw [Bytes.u64_memcpy (p := arrayStart b + 8 * i)]
    . rfl
    all_goals omega

omit hfits in
/-- The index of the first byte of a group. -/
theorem Rep.index_new {c : UInt8} (hup : (upper b).testBit (c.toNat / 32) = false) :
    (hasNone b).toNat + Bitmap.sum (lower b) (Bits.index (upper b) (c.toNat / 32)) =
      t.addIndex (some c) := by
  rw [h.bitmap.position_new c.toNat_lt hup, h.hasNone_eq, TrieNode.addIndex, length_below h.sorted]
  rfl

theorem rep_insertOld {c : UInt8} (hunset : t.isset (some c) = false)
    (hup : (upper b).testBit (c.toNat / 32) = true) :
    Rep hashSize (insertOld b c).1 ((t.createAdd (some c)).setLink (t.addIndex (some c))
        (array (insertOld b c).1 (t.addIndex (some c)))) ∧
      (insertOld b c).2 = t.addIndex (some c) := by
  have hspec := prefixSize_spec hashSize t.len
  have hcount := Bitmap.count_le_8 h.bitmap.upper_lt
  have hat := linksAt_spec hfits h.len_le hcount
  obtain ⟨hls, has⟩ := h.starts
  have hlen := h.count_eq
  have hidx := h.branchIndex_eq hup
  have hlt := Bitmap.index_lt h.bitmap.upper_lt hup
  have hle : t.addIndex (some c) ≤ t.count := length_below_le _ _
  rw [← TrieNode.addIndex] at hidx
  unfold insertOld
  simp only [ubit_eq] at hidx ⊢
  rw [hidx]
  refine ⟨?_, rfl⟩
  obtain ⟨hup', hcl, hlow, harr⟩ := header_congr (b := b)
      (z := (b.setU32 (lowerStart b + 4 * Bits.index (upper b) (c.toNat / 32))
        (lower b (Bits.index (upper b) (c.toNat / 32)) ||| 1 <<< lbit c)).memmove
        (arrayStart b + (t.addIndex (some c) + 1) * 8) (arrayStart b + t.addIndex (some c) * 8)
        ((count b - t.addIndex (some c)) * 8)) (by
    intro i _ hi
    rw [Bytes.memmove, Bytes.memcpy_of_lt, Bytes.setU32, Bytes.write_of_lt]
    all_goals omega)
  rw [h.compressedLen] at hcl
  rw [setU16_eq_setFields hup' hcl hlow harr]
  unfold Bytes.memmove
  apply Rep.of_insert hfits h hunset rfl
  . rw [Bytes.read_memcpy_of_apart, Bytes.read_setU32]
    . have hdata := h.compressed
      rwa [Layout.compressed, h.compressedLen] at hdata
    all_goals
      unfold dataStart
      omega
  . intro x
    apply h.bitmap.insert_old c x hup
    intro i hi
    rw [Bytes.u32_memcpy_of_apart, ← hls]
    . split
      . next heq =>
        rw [heq, Bytes.u32_setU32, lbit_eq]
        apply Nat.or_lt_two_pow
        . exact Bytes.u32_lt _
        . exact one_shift_lbit_lt c
      . next hne =>
        rw [Bytes.u32_setU32_of_apart]
        . rfl
        . omega
    . omega
  . intro x
    rw [lenField_some _ h.sorted hunset, h.arrayLen]
    rfl
  . exact hls
  . exact has
  . intro i hi
    rw [Bytes.u64_memcpy_of_apart, Bytes.u64_setU32_of_apart]
    . rfl
    all_goals omega
  . intro i hge hi
    rw [Bytes.u64_memcpy (p := arrayStart b + 8 * i), Bytes.u64_setU32_of_apart]
    . rfl
    all_goals omega

theorem rep_of_grown {c : UInt8} {z : Bytes} (hunset : t.isset (some c) = false)
    (hup : (upper b).testBit (c.toNat / 32) = false)
    (hgrown : Grown (b.setU8 2 (upper b ||| 1 <<< (c.toNat / 32))) z (lowerStart b)
      (Bits.index (upper b) (c.toNat / 32)) (Bits.count (upper b)) (1 <<< lbit c)
      (align (lowerStart b + Bits.count (upper b) * 4))
      (align (lowerStart b + (Bits.count (upper b) + 1) * 4)) (t.addIndex (some c)) (count b)) :
    let b' := (z.setU8 5 (align (lowerStart b + (Bits.count (upper b) + 1) * 4) / 8)).setU16 0
      (arrayLen b + 1)
    Rep hashSize b' ((t.createAdd (some c)).setLink (t.addIndex (some c))
      (array b' (t.addIndex (some c)))) := by
  have hc := c.toNat_lt
  have hg : c.toNat / 32 < 8 := by omega
  have hspec := prefixSize_spec hashSize t.len
  have hcount := Bitmap.count_or h.bitmap.upper_lt hg hup
  have hupper := Bitmap.or_shift_lt h.bitmap.upper_lt hg
  have hcount8 := Bitmap.count_le_8 hupper
  rw [hcount] at hcount8
  have hat := linksAt_spec hfits h.len_le hcount8
  have hold := linksAt_spec hfits h.len_le (Bitmap.count_le_8 h.bitmap.upper_lt)
  obtain ⟨hls, has⟩ := h.starts
  have hlen := h.count_eq
  have hstart : align (lowerStart b + (Bits.count (upper b) + 1) * 4) =
      linksAt hashSize t.len (Bits.count (upper b) + 1) := by
    rw [hls]
    rfl
  have hstart' : align (lowerStart b + Bits.count (upper b) * 4) = arrayStart b := by
    rw [has, hls]
    rfl
  rw [hstart, hstart'] at hgrown
  rw [hstart]
  have hread : ∀ at_ size, 6 ≤ at_ → at_ + size ≤ lowerStart b →
      (z.setU8 5 (linksAt hashSize t.len (Bits.count (upper b) + 1) / 8)).read at_ size =
        b.read at_ size := by
    intro at_ size hge hle
    rw [Bytes.read_setU8 _ (.inr hge), ← Bytes.read_setU8 b (.inr (show 2 + 1 ≤ at_ by omega))]
    apply Bytes.read_congr
    intro i hi
    exact hgrown.front _ (by omega)
  have hbyte : ∀ i, i < 5 →
      (z.setU8 5 (linksAt hashSize t.len (Bits.count (upper b) + 1) / 8)) i =
        (b.setU8 2 (upper b ||| 1 <<< (c.toNat / 32))) i := by
    intro i hi
    rw [Bytes.setU8, Bytes.write_of_lt hi, hgrown.front i (by omega)]
  have hup' : upper (z.setU8 5 (linksAt hashSize t.len (Bits.count (upper b) + 1) / 8)) =
      upper b ||| 1 <<< (c.toNat / 32) := by
    rw [upper, Bytes.u8, hbyte 2 (by decide)]
    exact Bytes.u8_setU8 hupper
  have hcl : compressedLen (z.setU8 5 (linksAt hashSize t.len (Bits.count (upper b) + 1) / 8)) =
      t.len := by
    rw [compressedLen, Bytes.u8, hbyte 3 (by decide), Bytes.setU8, Bytes.write_of_le (by simp)]
    exact h.compressedLen
  have hlow : lowerStart (z.setU8 5 (linksAt hashSize t.len (Bits.count (upper b) + 1) / 8)) =
      lowerStart b := by
    rw [Layout.lowerStart, lowerOffset, Bytes.u8, hbyte 4 (by decide), Bytes.setU8,
      Bytes.write_of_le (by simp)]
    rfl
  have harr : arrayStart (z.setU8 5 (linksAt hashSize t.len (Bits.count (upper b) + 1) / 8)) =
      linksAt hashSize t.len (Bits.count (upper b) + 1) := by
    rw [Layout.arrayStart, arrayOffset, Bytes.u8_setU8 (by omega)]
    omega
  rw [setU16_eq_setFields hup' hcl hlow harr]
  apply Rep.of_insert hfits h hunset rfl
  . rw [hread]
    . have hdata := h.compressed
      rwa [Layout.compressed, h.compressedLen] at hdata
    . exact Nat.le_add_right 6 hashSize
    . unfold dataStart
      omega
  . intro x
    apply h.bitmap.insert_new c x hup
    intro i hi
    have hword := hgrown.words i hi
    rw [← hls, Bytes.u32_setU8_of_apart _ (.inr (by omega)), hword, lbit_eq]
    unfold Bitmap.insertWord
    split
    . exact Bytes.u32_setU8_of_apart _ (.inr (by omega))
    . split
      . rfl
      . exact Bytes.u32_setU8_of_apart _ (.inr (by omega))
  . intro x
    rw [lenField_some _ h.sorted hunset, h.arrayLen]
    rfl
  . exact hls
  . rw [hcount]
  . intro i hi
    rw [Bytes.u64_setU8_of_apart _ (.inr (by omega)), hgrown.below i hi]
    exact Bytes.u64_setU8_of_apart _ (.inr (by omega))
  . intro i hge hi
    rw [Bytes.u64_setU8_of_apart _ (.inr (by omega)), hgrown.above i hge (by omega)]
    exact Bytes.u64_setU8_of_apart _ (.inr (by omega))

theorem rep_insertNew {c : UInt8} (hunset : t.isset (some c) = false)
    (hup : (upper b).testBit (c.toNat / 32) = false) :
    Rep hashSize (insertNew b c).1 ((t.createAdd (some c)).setLink (t.addIndex (some c))
        (array (insertNew b c).1 (t.addIndex (some c)))) ∧
      (insertNew b c).2 = t.addIndex (some c) := by
  have hc := c.toNat_lt
  have hg : c.toNat / 32 < 8 := by omega
  have hlen := h.count_eq
  have hoidx := h.index_new hup
  have hlidx : Bits.index (upper b ||| 1 <<< (c.toNat / 32)) (c.toNat / 32) =
      Bits.index (upper b) (c.toNat / 32) := by
    rw [Bitmap.index_or _ (by omega), if_neg (by omega), Nat.add_zero]
  have hl := Bitmap.index_le_count h.bitmap.upper_lt (Nat.le_of_lt hg)
  have hle : t.addIndex (some c) ≤ count b := by
    rw [hlen]
    exact length_below_le _ _
  have hx := one_shift_lbit_lt c
  have hold := align_spec (lowerStart b + Bits.count (upper b) * 4)
  have hnew := align_spec (lowerStart b + (Bits.count (upper b) + 1) * 4)
  unfold insertNew
  simp only [ubit_eq, hlidx, hoidx]
  refine ⟨?_, trivial⟩
  apply rep_of_grown hfits h hunset hup
  split
  . next hshift =>
    have heq : align (lowerStart b + (Bits.count (upper b) + 1) * 4) =
        align (lowerStart b + Bits.count (upper b) * 4) + 8 := by omega
    have hgrown := grown_shift (b.setU8 2 (upper b ||| 1 <<< (c.toNat / 32))) hl hx hle
      (by omega : lowerStart b + 4 * Bits.count (upper b) ≤ _) heq
    split
    . exact hgrown
    . next hzero =>
      have hidx : t.addIndex (some c) * 8 = 0 := by omega
      unfold Bytes.memmove at hgrown ⊢
      rw [hidx, Bytes.memcpy_zero] at hgrown
      rw [hidx]
      exact hgrown
  . next hgap =>
    apply grown_gap _ hl hx hle
    . omega
    . omega

/-- Putting a branch into the node in place. -/
theorem rep_insertBranch {key : Branch} (hunset : t.isset key = false) :
    Rep hashSize (insertBranch b key).1 ((t.createAdd key).setLink (t.addIndex key)
        (array (insertBranch b key).1 (t.addIndex key))) ∧
      (insertBranch b key).2 = t.addIndex key := by
  cases key with
  | none => exact rep_insertNone hfits h hunset
  | some c =>
    unfold insertBranch
    simp only
    rw [hasBit_upper]
    cases hup : (upper b).testBit (c.toNat / 32) with
    | true => exact rep_insertOld hfits h hunset hup
    | false => exact rep_insertNew hfits h hunset hup

/-- Memory with the same header, prefix and lower bitmaps. -/
theorem Rep.transfer {z : Bytes} {arr : List (Branch × Addr)} (hhead : ∀ i, i < 6 → z i = b i)
    (hbody : ∀ i, 6 + hashSize ≤ i → i < Layout.arrayStart b → z i = b i) (hsorted : Sorted arr)
    (hlen : arr.length = t.array.length)
    (hset : ∀ key, Branches.isset arr key = Branches.isset t.array key)
    (hlinks : ∀ i x, arr[i]? = some x → z.u64 (Layout.arrayStart b + 8 * i) = x.2) :
    Rep hashSize z ⟨t.compressed, arr⟩ := by
  have hspec := prefixSize_spec hashSize t.len
  have hat := linksAt_spec hfits h.len_le (Bitmap.count_le_8 h.bitmap.upper_lt)
  obtain ⟨hls, has⟩ := h.starts
  obtain ⟨hup, hcl, hlow, harr⟩ := header_congr (z := z) (b := b) fun i _ hi => hhead i hi
  have hread : ∀ at_ size, 6 + hashSize ≤ at_ → at_ + size ≤ Layout.arrayStart b →
      z.read at_ size = b.read at_ size := by
    intro at_ size hge hle
    apply Bytes.read_congr
    intro i hi
    apply hbody
    . omega
    . omega
  constructor
  . exact hsorted
  . exact h.len_le
  . have hbytes : Layout.arrayLen z = Layout.arrayLen b := by
      unfold Layout.arrayLen Bytes.u16
      apply congrArg ofLittle
      apply Bytes.read_congr
      intro i hi
      apply hhead
      omega
    rw [hbytes, h.arrayLen, TrieNode.count, TrieNode.count, TrieNode.hasNone, TrieNode.hasNone, hlen,
      hset]
  . rw [hcl]
    exact h.compressedLen
  . rw [Layout.compressed, hcl, h.compressedLen, hread]
    . have hdata := h.compressed
      rwa [Layout.compressed, h.compressedLen] at hdata
    . exact Nat.le_refl _
    . unfold dataStart
      omega
  . rw [hlow]
    exact h.lowerStart
  . rw [harr, hlow, hup]
    exact h.arrayStart
  . rw [hup]
    apply h.bitmap.congr
    . intro i hi
      rw [lower, hlow, lower, Bytes.u32, hread]
      . rfl
      . omega
      . omega
    . intro c _
      exact hset _
  . intro i x hx
    rw [array, harr]
    exact hlinks i x hx

/-- The caller writes a link. -/
theorem rep_setLink {i link : Nat} (hi : i < t.count) (hlink : link < 2 ^ 64) :
    Rep hashSize (setLink b i link) (t.setLink i link) := by
  have hspec := prefixSize_spec hashSize t.len
  have hat := linksAt_spec hfits h.len_le (Bitmap.count_le_8 h.bitmap.upper_lt)
  obtain ⟨hls, has⟩ := h.starts
  obtain ⟨l, x, r, harr, hl⟩ : ∃ l x r, t.array = l ++ x :: r ∧ l.length = i := by
    have hi' : i < t.array.length := hi
    refine ⟨t.array.take i, t.array[i], t.array.drop (i + 1), ?_, ?_⟩
    . rw [← List.drop_eq_getElem_cons, List.take_append_drop]
    . rw [List.length_take]
      exact Nat.min_eq_left (Nat.le_of_lt hi')
  have hnew : t.array.modify i (fun z => (z.1, link)) = l ++ (x.1, link) :: r := by
    rw [harr, ← hl]
    exact modify_append_cons l r x.2 link
  unfold setLink TrieNode.setLink
  apply h.transfer hfits
  . intro j hj
    exact Bytes.write_of_lt (by omega)
  . intro j _ hj
    exact Bytes.write_of_lt (by omega)
  . rw [hnew]
    have hsorted := h.sorted
    rw [harr] at hsorted
    exact sorted_replace hsorted
  . exact List.length_modify _ _ _
  . intro key
    rw [hnew, harr, isset_append, isset_append]
    rfl
  . intro j y hy
    rw [List.getElem?_modify, Option.map_eq_map, Option.map_eq_some_iff] at hy
    obtain ⟨x, hx, hy⟩ := hy
    rw [← hy]
    split
    . next heq =>
      rw [← heq]
      exact Bytes.u64_setU64 hlink
    . next hne =>
      rw [Bytes.u64, Bytes.read_setU64]
      . exact h.links j x hx
      . omega

/-- The hash is none of the branches' business. -/
theorem rep_write_hash {data : List UInt8} (hdata : data.length = hashSize) :
    Rep hashSize (b.write 6 data) t := by
  have hspec := prefixSize_spec hashSize t.len
  have hat := linksAt_spec hfits h.len_le (Bitmap.count_le_8 h.bitmap.upper_lt)
  obtain ⟨hls, has⟩ := h.starts
  apply h.transfer hfits
  . intro i hi
    exact Bytes.write_of_lt hi
  . intro i hge _
    exact Bytes.write_of_le (by omega)
  . exact h.sorted
  . rfl
  . intro key
    rfl
  . intro i x hx
    rw [Bytes.u64, Bytes.read_write_of_apart]
    . exact h.links i x hx
    . omega

end Insert

end Layout
end Leaves
