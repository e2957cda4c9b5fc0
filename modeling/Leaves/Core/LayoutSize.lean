import Leaves.Core.LayoutInsert

/-!
The sizes that are computed before a node is written are those it has then, and the bytes of a node are
given by its branches.
-/

namespace Leaves

namespace Bitmap

open Branches

variable {u u' : Nat} {w w' : Nat → Nat} {m m' : Nat → Bool}

/-- The groups are those of the bytes. -/
theorem upper_unique (h : Bitmap u w m) (h' : Bitmap u' w' m') (hm : ∀ c, c < 256 → m c = m' c) :
    u = u' := by
  apply Nat.eq_of_testBit_eq
  intro g
  by_cases hg : g < 8
  . rw [Bool.eq_iff_iff, h.upper g hg, h'.upper g hg]
    constructor
    . intro ⟨j, hj, hmj⟩
      exact ⟨j, hj, by rw [← hm _ (by omega)]; exact hmj⟩
    . intro ⟨j, hj, hmj⟩
      exact ⟨j, hj, by rw [hm _ (by omega)]; exact hmj⟩
  . have hle : 2 ^ 8 ≤ 2 ^ g := Nat.pow_le_pow_right (by decide) (Nat.le_of_not_lt hg)
    rw [Nat.testBit_lt_two_pow (Nat.lt_of_lt_of_le h.upper_lt hle),
      Nat.testBit_lt_two_pow (Nat.lt_of_lt_of_le h'.upper_lt hle)]

/-- And so are the lower bitmaps. -/
theorem word_unique (h : Bitmap u w m) (h' : Bitmap u w' m') (hm : ∀ c, c < 256 → m c = m' c) {i : Nat}
    (hi : i < Bits.count u) : w i = w' i := by
  obtain ⟨g, hup, hidx⟩ : ∃ g, u.testBit g = true ∧ Bits.index u g = i := by
    rw [count_upper h.upper_lt] at hi
    obtain ⟨g, hg, hup, hcount⟩ := Bits.exists_of_lt_count hi
    exact ⟨g, hup, by rw [Bits.index_eq u (by omega), hcount]⟩
  have hg := testBit_lt_8 h.upper_lt hup
  apply Nat.eq_of_testBit_eq
  intro j
  by_cases hj : j < 32
  . rw [← hidx, h.word g hg hup j hj, h'.word g hg hup j hj]
    exact hm _ (by omega)
  . have hle : 2 ^ 32 ≤ 2 ^ j := Nat.pow_le_pow_right (by decide) (Nat.le_of_not_lt hj)
    rw [Nat.testBit_lt_two_pow (Nat.lt_of_lt_of_le (h.word_lt i hi) hle),
      Nat.testBit_lt_two_pow (Nat.lt_of_lt_of_le (h'.word_lt i hi) hle)]

theorem count_eq_zero {x : Nat} (hx : x < 2 ^ 32) (h : Bits.count x = 0) : x = 0 := by
  apply Nat.eq_of_testBit_eq
  intro j
  rw [Nat.zero_testBit]
  apply Bool.eq_false_iff.2
  intro hj
  rw [Bits.count_eq, Nat.count_iff_forall_not] at h
  exact h j (Bits.testBit_lt hx hj) hj

/-- The bit is the last one. -/
theorem and_complement_eq_zero_iff {x v : Nat} (hx : x < 2 ^ 32) (hv : x.testBit v = true) :
    x &&& Bits.complement (1 <<< v) = 0 ↔ Bits.count x = 1 := by
  have hv32 := Bits.testBit_lt hx hv
  have hidx := index_and x (g := v) (Nat.le_refl 32)
  rw [if_pos ⟨hv32, hv⟩, Bits.index_eq _ (Nat.le_refl 32), Bits.index_eq _ (Nat.le_refl 32),
    ← Bits.count_eq, ← Bits.count_eq] at hidx
  rw [hidx]
  constructor
  . intro hzero
    rw [hzero]
    rfl
  . intro hone
    apply count_eq_zero
    . exact Nat.lt_of_le_of_lt Nat.and_le_left hx
    . omega

/-- Each group has a byte. -/
theorem index_le_members (h : Bitmap u w m) {g : Nat} (hg : g ≤ 8) :
    Bits.index u g ≤ Nat.count (fun c => m c = true) (32 * g) := by
  induction g with
  | zero =>
    rw [Bits.index_eq _ (Nat.zero_le _)]
    exact Nat.le_refl _
  | succ g ih =>
    have hle := ih (by omega)
    rw [index_succ (by omega), Nat.mul_succ, Nat.count_add]
    split
    . next hup =>
      obtain ⟨j, hj, hmj⟩ := (h.upper g (by omega)).1 hup
      have hlt : 0 < Nat.count (fun k => m (32 * g + k) = true) 32 := by
        have hmono := Nat.count_strict_mono (p := fun k => m (32 * g + k) = true) hmj hj
        omega
      omega
    . omega

theorem count_le_members (h : Bitmap u w m) :
    Bits.count u ≤ Nat.count (fun c => m c = true) 256 := by
  rw [count_eq_index h.upper_lt]
  exact h.index_le_members (Nat.le_refl 8)

end Bitmap

namespace Layout

open Branches

theorem align_add (s n : Nat) : align (s + n * 8) = align s + n * 8 := by
  unfold align
  omega

section Size

variable {hashSize : Nat} {b b' : Bytes} {t t' : TrieNode} (h : Rep hashSize b t)
  (h' : Rep hashSize b' t')
include h

/-- The size of a node that is in the memory. -/
theorem Rep.size_eq :
    size b = align (prefixSize hashSize t.len + Bits.count (upper b) * 4 + t.count * 8) := by
  rw [size, arraySize, h.arrayStart, h.lowerStart, h.count_eq, align_add]

theorem Rep.changedLen_eq (len : Nat) : changedLen hashSize b len =
    align (prefixSize hashSize len + Bits.count (upper b) * 4 + t.count * 8) := by
  rw [changedLen, lowerSize, arraySize, h.count_eq]

/-- `size(prefix, branches)` is enough for any node. -/
theorem Rep.size_le_max : size b ≤ sizeMax hashSize t.len t.count := by
  have hgroups := h.bitmap.count_le_members
  have hcount8 := Bitmap.count_le_8 h.bitmap.upper_lt
  have hlen := length_eq h.sorted
  have hcount : Bits.count (upper b) * 4 ≤ min t.count 8 * 4 := by
    apply Nat.mul_le_mul_right
    apply Nat.le_min.2
    constructor
    . rw [TrieNode.count]
      omega
    . exact hcount8
  rw [h.size_eq, sizeMax, align, align]
  omega

include h'

/-- `changed_len` for another prefix. -/
theorem Rep.size_of_prefix (harr : t'.array = t.array) :
    size b' = changedLen hashSize b t'.len := by
  have hup : upper b' = upper b := by
    apply h'.bitmap.upper_unique h.bitmap
    intro c _
    rw [harr]
  rw [h'.size_eq, h.changedLen_eq, hup, TrieNode.count, TrieNode.count, harr]

/-- `increment_size` for a branch more. -/
theorem Rep.size_of_insert {key : Branch} {x : Addr} (hunset : t.isset key = false)
    (hlen : t'.len = t.len) (harr : t'.array = insert t.array key x) :
    size b' = incrementSize hashSize b key := by
  have hcount : t'.count = t.count + 1 := by
    rw [TrieNode.count, harr]
    exact length_insert h.sorted hunset x
  rw [h'.size_eq, hlen, hcount]
  unfold incrementSize
  rw [h.compressedLen, h.count_eq]
  cases key with
  | none =>
    have hup : upper b' = upper b := by
      apply h'.bitmap.upper_unique h.bitmap
      intro c _
      rw [harr]
      exact members_insert_none c x
    rw [hup]
    rfl
  | some c =>
    have hc := c.toNat_lt
    have hg : c.toNat / 32 < 8 := by omega
    simp only
    rw [hasBit_upper]
    cases hbit : (upper b).testBit (c.toNat / 32) with
    | true =>
      have hup : upper b' = upper b := by
        apply h'.bitmap.upper_unique (h.bitmap.addOld hbit)
        intro d hd
        rw [harr]
        exact members_insert hd c x
      rw [if_pos rfl, hup, lowerSize]
    | false =>
      have hup : upper b' = upper b ||| 1 <<< (c.toNat / 32) := by
        apply h'.bitmap.upper_unique (h.bitmap.addNew hc hbit)
        intro d hd
        rw [harr]
        exact members_insert hd c x
      rw [if_neg Bool.false_ne_true, hup, Bitmap.count_or h.bitmap.upper_lt hg hbit, lowerSize,
        Nat.add_mul, Nat.one_mul]

/-- `decrement_size` for a branch less. -/
theorem Rep.size_of_remove {key : Branch} (hset : t.isset key = true) (hlen : t'.len = t.len)
    (harr : t'.array = remove t.array key) : size b' = decrementSize hashSize b key := by
  have hcount : t'.count = t.count - 1 := by
    have hrest := length_remove h.sorted hset
    rw [TrieNode.count, TrieNode.count, harr]
    omega
  rw [h'.size_eq, hlen, hcount]
  unfold decrementSize
  rw [h.compressedLen, h.count_eq]
  cases key with
  | none =>
    have hup : upper b' = upper b := by
      apply h'.bitmap.upper_unique h.bitmap
      intro c _
      rw [harr]
      exact members_remove_none c
    rw [hup]
    rfl
  | some c =>
    have hc := c.toNat_lt
    have hmem : members t.array c.toNat = true := by
      rw [members_toNat]
      exact hset
    have hbit := h.bitmap.testBit_upper hc hmem
    have hlower : (lower b (Bits.index (upper b) (c.toNat / 32))).testBit (c.toNat % 32) = true := by
      have hisset := h.bitmap.isset hc
      rw [hmem, hbit, Bool.true_and] at hisset
      exact hisset.symm
    have hiff := Bitmap.and_complement_eq_zero_iff (Bytes.u32_lt _ : lower b _ < 2 ^ 32) hlower
    simp only
    rw [hasBit_upper, hbit, ubit_eq]
    by_cases hone : Bits.count (lower b (Bits.index (upper b) (c.toNat / 32))) = 1
    . have hup : upper b' = upper b &&& Bits.complement (1 <<< (c.toNat / 32)) := by
        apply h'.bitmap.upper_unique (h.bitmap.removeLast hc hmem (hiff.2 hone))
        intro d hd
        rw [harr]
        exact members_remove hd c
      have hgroups := Bitmap.count_and h.bitmap.upper_lt hbit
      rw [if_pos ⟨rfl, hone⟩, hup, lowerSize, ← hgroups]
      congr 2
      omega
    . have hup : upper b' = upper b := by
        apply h'.bitmap.upper_unique (h.bitmap.removeOld hc hmem (fun hzero => hone (hiff.1 hzero)))
        intro d hd
        rw [harr]
        exact members_remove hd c
      rw [if_neg (fun hand => hone hand.2), hup, lowerSize]

end Size

section Two

variable {hashSize : Nat} {b : Bytes} {t : TrieNode} (h : Rep hashSize b t)
include h

/-- `size(prefix, key1, key2)` for a node with the two branches. -/
theorem Rep.size_of_two {key1 key2 : Branch} (hne : key1 ≠ key2)
    (hset : ∀ key, t.isset key = (decide (key = key1) || decide (key = key2)))
    (hcount : t.count = 2) : size b = size2 hashSize t.len key1 key2 := by
  have hmem : ∀ c, members t.array c =
      (decide (some (UInt8.ofNat c) = key1) || decide (some (UInt8.ofNat c) = key2)) := by
    intro c
    exact hset _
  have hone : ∀ c : UInt8, (∀ d, d < 256 → members t.array d = decide (UInt8.ofNat d = c)) →
      Bits.count (upper b) = 1 := by
    intro c hc
    have hup : upper b = 1 <<< (c.toNat / 32) := by
      apply h.bitmap.upper_unique (Bitmap.single (v := fun _ => 1 <<< (c.toNat % 32)) c (0 : Addr) rfl)
      intro d hd
      rw [hc d hd, members, isset_insert]
      simp [Branches.isset]
    rw [hup, Bitmap.count_single]
  unfold size2
  rw [h.size_eq, hcount, align_add]
  rcases key1 with _ | c1 <;> rcases key2 with _ | c2
  . exact absurd rfl hne
  . rw [hone c2]
    intro d _
    rw [hmem d]
    simp
  . rw [hone c1]
    intro d _
    rw [hmem d]
    simp
  . have hc1 := c1.toNat_lt
    have hc2 := c2.toNat_lt
    have hsingle := Bitmap.single (v := fun _ => 1 <<< (c1.toNat % 32)) c1 (0 : Addr) rfl
    have htwo : ∀ d, d < 256 → members t.array d =
        Function.update (members (insert [] (some c1) (0 : Addr))) c2.toNat true d := by
      intro d hd
      rw [hmem d, ← members_insert hd c2 (0 : Addr), members, isset_insert, isset_insert]
      simp [Branches.isset, Bool.or_comm]
    simp only
    rw [ubit_eq, ubit_eq]
    by_cases heq : c1.toNat / 32 = c2.toNat / 32
    . have hbit : (1 <<< (c1.toNat / 32)).testBit (c2.toNat / 32) = true := by
        rw [Bits.testBit_one_shift]
        exact decide_eq_true heq
      have hup := h.bitmap.upper_unique (hsingle.addOld hbit) htwo
      rw [if_pos heq, hup, Bitmap.count_single]
    . have hbit : (1 <<< (c1.toNat / 32)).testBit (c2.toNat / 32) = false := by
        rw [Bits.testBit_one_shift]
        exact decide_eq_false heq
      have hup := h.bitmap.upper_unique (hsingle.addNew hc2 hbit) htwo
      rw [if_neg heq, hup, Bitmap.count_or hsingle.upper_lt (by omega) hbit, Bitmap.count_single]

end Two

section Bytes

/-- A byte that the node has: of the header without the hash, of the prefix, of a lower bitmap or of a
link. -/
def Used (hashSize : Nat) (b : Bytes) (i : Nat) : Prop :=
  i < 6 ∨ (dataStart hashSize ≤ i ∧ i < dataStart hashSize + compressedLen b) ∨
    (lowerStart b ≤ i ∧ i < lowerStart b + lowerSize b) ∨ (arrayStart b ≤ i ∧ i < size b)

variable {hashSize : Nat} {b b' : Bytes} {t : TrieNode} (h : Rep hashSize b t)
  (h' : Rep hashSize b' t)
include h h'

/-- The bytes are given by the branches. -/
theorem Rep.used_eq {i : Nat} (hi : Used hashSize b i) : b i = b' i := by
  obtain ⟨hls, has⟩ := h.starts
  obtain ⟨hls', has'⟩ := h'.starts
  have hup : upper b = upper b' := h.bitmap.upper_unique h'.bitmap fun _ _ => rfl
  have hlow : Layout.lowerStart b = Layout.lowerStart b' := by rw [hls, hls']
  have harr : Layout.arrayStart b = Layout.arrayStart b' := by rw [has, has', hup]
  rcases hi with hlt | ⟨hge, hlt⟩ | ⟨hge, hlt⟩ | ⟨hge, hlt⟩
  . match i with
    | 0 | 1 =>
      have hal : Layout.arrayLen b = Layout.arrayLen b' := by rw [h.arrayLen, h'.arrayLen]
      exact Bytes.eq_of_ofLittle hal (Nat.zero_le _) (by decide)
    | 2 => exact UInt8.toNat_inj.1 hup
    | 3 =>
      have hlen : Layout.compressedLen b = Layout.compressedLen b' := by
        rw [h.compressedLen, h'.compressedLen]
      exact UInt8.toNat_inj.1 hlen
    | 4 => exact UInt8.toNat_inj.1 (Nat.eq_of_mul_eq_mul_right (by decide) hlow)
    | 5 => exact UInt8.toNat_inj.1 (Nat.eq_of_mul_eq_mul_right (by decide) harr)
  . have hdata : Layout.compressed hashSize b = Layout.compressed hashSize b' := by
      rw [h.compressed, h'.compressed]
    rw [Layout.compressed, Layout.compressed, h.compressedLen, h'.compressedLen] at hdata
    rw [h.compressedLen] at hlt
    exact Bytes.eq_of_read hdata hge hlt
  . have hk : (i - Layout.lowerStart b) / 4 < Bits.count (upper b) := by
      unfold lowerSize at hlt
      omega
    have hmap := h'.bitmap
    rw [← hup] at hmap
    have hword := h.bitmap.word_unique hmap (fun _ _ => rfl) hk
    rw [lower, lower, ← hlow] at hword
    apply Bytes.eq_of_ofLittle hword
    . omega
    . omega
  . rw [size, arraySize, h.count_eq] at hlt
    have hk : (i - Layout.arrayStart b) / 8 < t.array.length := by
      rw [TrieNode.count] at hlt
      omega
    have hget := List.getElem?_eq_getElem hk
    have hlink : array b ((i - Layout.arrayStart b) / 8) =
        array b' ((i - Layout.arrayStart b) / 8) := by
      rw [h.links _ _ hget, h'.links _ _ hget]
    rw [array, array, ← harr] at hlink
    apply Bytes.eq_of_ofLittle hlink
    . omega
    . omega

end Bytes

end Layout

end Leaves
