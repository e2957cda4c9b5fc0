import Leaves.Core.LayoutOffsets
import Leaves.Core.LayoutSize

/-!
Trie nodes over any sequence of the functions that build and change them: each is the finite map of the
branches that were put in.
-/

namespace Leaves
namespace Layout

open Branches

/-- `offset`: the link of a branch, no link for the null pointer. -/
def offset (b : Bytes) (key : Branch) : Option Nat :=
  let idx := arrayIndex b key
  if 0 ≤ idx then some (array b idx.toNat) else none

/-- The memory and the branches after any calls. A new link is what is in the memory until it is
written. -/
inductive Built (hashSize : Nat) : Bytes → TrieNode → Prop
  | create1 (dst : Bytes) {pre : Key} (hpre : pre.length ≤ 255) (key : Branch) :
    Built hashSize (create1 hashSize dst pre key)
      ((TrieNode.create1 pre key).setLink 0 (array (create1 hashSize dst pre key) 0))
  | create2 (dst : Bytes) {pre : Key} (hpre : pre.length ≤ 255) {key1 key2 : Branch}
    (hne : key1 ≠ key2) {r : Bytes × Nat × Nat} (hr : r = create2 hashSize dst pre key1 key2) :
    Built hashSize r.1 ((TrieNode.create2 pre key1 (array r.1 r.2.1) key2).setLink r.2.2
      (array r.1 r.2.2))
  | createOffsets (dst : Bytes) {pre : Key} (hpre : pre.length ≤ 255) {offsets : Branch → Nat}
    (hlink : ∀ key, offsets key < 2 ^ 64) {u : Nat} (hu : u < 2 ^ 8)
    (hup : ∀ g, g < 8 →
      (u.testBit g = true ↔ ∃ j, j < 32 ∧ isOffset offsets (32 * g + j) = true)) :
    Built hashSize (createOffsets hashSize offsets dst pre u) ⟨pre, ofOffsets offsets⟩
  | createPrefix (dst : Bytes) {src : Bytes} {t : TrieNode} (h : Built hashSize src t) {pre : Key}
    (hpre : pre.length ≤ 255) :
    Built hashSize (createPrefix hashSize dst src pre) (t.createPrefix pre)
  | createBranch (dst : Bytes) {src : Bytes} {t : TrieNode} (h : Built hashSize src t) {key : Branch}
    (hunset : t.isset key = false) {r : Bytes × Nat} (hr : r = createBranch hashSize dst src key) :
    Built hashSize r.1 ((t.createAdd key).setLink r.2 (array r.1 r.2))
  | createRemove (dst : Bytes) {src : Bytes} {t : TrieNode} (h : Built hashSize src t) {key : Branch}
    (hset : t.isset key = true) :
    Built hashSize (createRemove hashSize dst src key) (t.createRemove key)
  | insertBranch {b : Bytes} {t : TrieNode} (h : Built hashSize b t) {key : Branch}
    (hunset : t.isset key = false) {r : Bytes × Nat} (hr : r = insertBranch b key) :
    Built hashSize r.1 ((t.createAdd key).setLink r.2 (array r.1 r.2))
  | setLink {b : Bytes} {t : TrieNode} (h : Built hashSize b t) {i link : Nat} (hi : i < t.count)
    (hlink : link < 2 ^ 64) : Built hashSize (setLink b i link) (t.setLink i link)
  | setHash {b : Bytes} {t : TrieNode} (h : Built hashSize b t) {data : List UInt8}
    (hdata : data.length = hashSize) : Built hashSize (b.write 6 data) t

variable {hashSize : Nat} (hfits : Fits hashSize) {b : Bytes} {t : TrieNode}

include hfits in
theorem Built.rep (h : Built hashSize b t) : Rep hashSize b t := by
  induction h with
  | create1 dst hpre key => exact rep_create1 hfits dst hpre key
  | create2 dst hpre hne hr =>
    rw [hr]
    exact (rep_create2 hfits dst hpre hne).1
  | createOffsets dst hpre hlink hu hup =>
    exact rep_createOffsets _ hfits hpre hlink hu hup dst
  | createPrefix dst _ hpre ih => exact rep_createPrefix hfits dst ih hpre
  | createBranch dst _ hunset hr ih =>
    obtain ⟨hrep, hidx⟩ := rep_createBranch hfits dst ih hunset
    rw [hr, hidx]
    exact hrep
  | createRemove dst _ hset ih => exact rep_createRemove hfits dst ih hset
  | insertBranch _ hunset hr ih =>
    obtain ⟨hrep, hidx⟩ := rep_insertBranch hfits ih hunset
    rw [hr, hidx]
    exact hrep
  | setLink _ hi hlink ih => exact rep_setLink hfits ih hi hlink
  | setHash _ hdata ih => exact rep_write_hash hfits ih hdata

/-- The queries of the memory are those of the sorted map, and no assertion of theirs fails. -/
structure Agrees (b : Bytes) (t : TrieNode) : Prop where
  sorted : Sorted t.array
  count : count b = t.count
  count_le : t.count ≤ MAX_BRANCH_COUNT
  isset : ∀ key, isset b key = t.isset key
  arrayIndex : ∀ key, arrayIndex b key = (t.arrayIndex key).elim (-1) fun i => (i : Int)
  index_lt : ∀ key, Layout.arrayIndex b key < Layout.count b
  offset : ∀ key, offset b key = (t.array.find? fun x => x.1 == key).map (·.2)
  next : ∀ key, next b key = Rep.result (t.next key)
  prev : ∀ key, prev b key = Rep.result (t.prev key)
  first : ∀ x, t.array.head? = some x → first b = x.1.toInt
  forEachBranch : forEachBranch b = t.array.map fun x => (x.1.toInt, x.2)

theorem Rep.offset_eq (h : Rep hashSize b t) (key : Branch) :
    offset b key = (t.array.find? fun x => x.1 == key).map (·.2) := by
  rw [offset, h.arrayIndex_eq]
  cases hset : Branches.isset t.array key with
  | false =>
    have hfind : (t.array.find? fun x => x.1 == key) = none := by
      rw [List.find?_eq_none]
      intro x hx heq
      rw [Branches.isset, List.any_eq_false] at hset
      exact hset x hx heq
    rw [TrieNode.arrayIndex, arrayIndex_of_not_isset hset, hfind]
    rfl
  | true =>
    obtain ⟨l, x, r, harr⟩ := exists_split hset
    have hsorted := h.sorted
    rw [harr] at hsorted
    have hidx : t.arrayIndex key = some l.length := by
      rw [TrieNode.arrayIndex, harr]
      exact arrayIndex_append_cons hsorted
    have hfind : (t.array.find? fun x => x.1 == key) = some (key, x) := by
      have hl := (sorted_append_cons.1 hsorted).2.2.1
      rw [harr, List.find?_append, List.find?_eq_none.2, Option.none_or, List.find?_cons_of_pos]
      . exact beq_self_eq_true key
      . intro y hy heq
        have hlt := hl y hy
        rw [eq_of_beq heq] at hlt
        exact Int.lt_irrefl _ hlt
    have hlink : array b l.length = x := by
      apply h.links l.length (key, x)
      rw [harr, getElem?_split, if_neg (Nat.lt_irrefl _), if_pos rfl]
    rw [hidx, hfind]
    have hle : (0 : Int) ≤ (l.length : Int) := Int.natCast_nonneg _
    change (if (0 : Int) ≤ (l.length : Int) then some (array b (l.length : Int).toNat) else none) =
      some x
    rw [if_pos hle, Int.toNat_natCast, hlink]

theorem Rep.agrees (h : Rep hashSize b t) : Agrees b t := by
  constructor
  . exact h.sorted
  . exact h.count_eq
  . exact h.count_le
  . exact h.isset_eq
  . exact h.arrayIndex_eq
  . intro key
    rw [h.arrayIndex_eq, h.count_eq, TrieNode.arrayIndex, Branches.arrayIndex]
    split
    . next hset =>
      have hlt := length_below_lt h.sorted hset
      rw [TrieNode.count, Option.elim_some]
      omega
    . rw [Option.elim_none]
      omega
  . exact h.offset_eq
  . exact h.next_eq
  . exact h.prev_eq
  . intro x hx
    exact h.first_eq hx
  . exact h.forEachBranch_eq

/-- The other branches keep their links. -/
theorem find?_insert {arr : List (Branch × Addr)} {key k : Branch} {x : Addr} (h : Sorted arr)
    (hunset : Branches.isset arr key = false) (hne : k ≠ key) :
    (insert arr key x).find? (fun x => x.1 == k) = arr.find? fun x => x.1 == k := by
  have hskip : ¬(((key, x) : Branch × Addr).1 == k) = true := by
    rw [beq_iff_eq]
    exact fun heq => hne heq.symm
  have hcons : ((key, x) :: above arr key).find? (fun x => x.1 == k) =
      (above arr key).find? fun x => x.1 == k := List.find?_cons_of_neg hskip
  rw [Branches.insert, List.find?_append, hcons, ← List.find?_append, below_append_above h hunset]

theorem find?_remove (arr : List (Branch × Addr)) {key k : Branch} (hne : k ≠ key) :
    (remove arr key).find? (fun x => x.1 == k) = arr.find? fun x => x.1 == k := by
  rw [remove, List.find?_filter]
  congr 1
  funext x
  by_cases heq : x.1 = k
  . simp [heq, hne]
  . simp [heq]

theorem createAdd_setLink (t : TrieNode) (key : Branch) (x : Addr) :
    (t.createAdd key).setLink (t.addIndex key) x = ⟨t.compressed, insert t.array key x⟩ := by
  rw [TrieNode.setLink, TrieNode.createAdd, TrieNode.addIndex]
  simp only [modify_insert]

/-- What the functions do with a node: the sizes computed before are enough, the other branches keep
their links, and the two ways to put a branch in write the same bytes. -/
structure Follows (hashSize : Nat) (b : Bytes) (t : TrieNode) : Prop where
  size_le : size b ≤ sizeMax hashSize t.len t.count
  prefix_size : ∀ dst pre, pre.length ≤ 255 →
    size (createPrefix hashSize dst b pre) ≤ changedLen hashSize b pre.length
  prefix_links : ∀ dst pre, pre.length ≤ 255 → ∀ k,
    offset (createPrefix hashSize dst b pre) k = offset b k
  add_size : ∀ dst key, t.isset key = false →
    size (createBranch hashSize dst b key).1 ≤ incrementSize hashSize b key
  add_links : ∀ dst key, t.isset key = false → ∀ k, k ≠ key →
    offset (createBranch hashSize dst b key).1 k = offset b k
  insert_size : ∀ key, t.isset key = false →
    size (insertBranch b key).1 ≤ incrementSize hashSize b key
  insert_links : ∀ key, t.isset key = false → ∀ k, k ≠ key →
    offset (insertBranch b key).1 k = offset b k
  remove_size : ∀ dst key, t.isset key = true →
    size (createRemove hashSize dst b key) ≤ decrementSize hashSize b key
  remove_links : ∀ dst key, t.isset key = true → ∀ k, k ≠ key →
    offset (createRemove hashSize dst b key) k = offset b k
  same_index : ∀ dst key, t.isset key = false →
    (insertBranch b key).2 = (createBranch hashSize dst b key).2
  same_bytes : ∀ dst key, t.isset key = false → ∀ link, link < 2 ^ 64 →
    let r := insertBranch b key
    let r' := createBranch hashSize dst b key
    ∀ i, Used hashSize (setLink r.1 r.2 link) i → setLink r.1 r.2 link i = setLink r'.1 r'.2 link i

include hfits in
theorem Rep.follows (h : Rep hashSize b t) : Follows hashSize b t := by
  have hadd : ∀ dst key, t.isset key = false →
      Rep hashSize (createBranch hashSize dst b key).1 ⟨t.compressed, insert t.array key
        (array (createBranch hashSize dst b key).1 (t.addIndex key))⟩ := by
    intro dst key hunset
    rw [← createAdd_setLink]
    exact (rep_createBranch hfits dst h hunset).1
  have hins : ∀ key, t.isset key = false →
      Rep hashSize (insertBranch b key).1 ⟨t.compressed, insert t.array key
        (array (insertBranch b key).1 (t.addIndex key))⟩ := by
    intro key hunset
    rw [← createAdd_setLink]
    exact (rep_insertBranch hfits h hunset).1
  have hlinks : ∀ {b' : Bytes} {key : Branch} {x : Addr}, t.isset key = false →
      Rep hashSize b' ⟨t.compressed, insert t.array key x⟩ → ∀ k, k ≠ key →
        offset b' k = offset b k := by
    intro b' key x hunset h' k hne
    rw [h'.offset_eq, h.offset_eq, find?_insert h.sorted hunset hne]
  constructor
  . exact h.size_le_max
  . intro dst pre hpre
    have hsize := h.size_of_prefix (rep_createPrefix hfits dst h hpre) rfl
    rw [hsize]
    exact Nat.le_refl _
  . intro dst pre hpre k
    rw [(rep_createPrefix hfits dst h hpre).offset_eq, h.offset_eq]
    rfl
  . intro dst key hunset
    rw [h.size_of_insert (hadd dst key hunset) hunset rfl rfl]
  . intro dst key hunset
    exact hlinks hunset (hadd dst key hunset)
  . intro key hunset
    rw [h.size_of_insert (hins key hunset) hunset rfl rfl]
  . intro key hunset
    exact hlinks hunset (hins key hunset)
  . intro dst key hset
    rw [h.size_of_remove (rep_createRemove hfits dst h hset) hset rfl rfl]
  . intro dst key hset k hne
    rw [(rep_createRemove hfits dst h hset).offset_eq, h.offset_eq, TrieNode.createRemove,
      find?_remove _ hne]
  . intro dst key hunset
    rw [(rep_insertBranch hfits h hunset).2, (rep_createBranch hfits dst h hunset).2]
  . intro dst key hunset link hlink r r' i hi
    have hidx : r.2 = t.addIndex key := (rep_insertBranch hfits h hunset).2
    have hidx' : r'.2 = t.addIndex key := (rep_createBranch hfits dst h hunset).2
    -- with the link written, both hold the same node
    have hwrite : ∀ {b' : Bytes} {y : Addr}, Rep hashSize b' ⟨t.compressed, insert t.array key y⟩ →
        Rep hashSize (setLink b' (t.addIndex key) link) ⟨t.compressed, insert t.array key link⟩ := by
      intro b' y h'
      have hlt : t.addIndex key < (insert t.array key y).length := by
        have hle := length_below_le t.array key
        rw [length_insert h.sorted hunset, TrieNode.addIndex]
        omega
      have hset := rep_setLink hfits h' hlt hlink
      rw [TrieNode.setLink, TrieNode.addIndex] at hset
      simp only [modify_insert] at hset
      exact hset
    rw [hidx] at hi ⊢
    rw [hidx']
    exact (hwrite (hins key hunset)).used_eq (hwrite (hadd dst key hunset)) hi

theorem isset_modify (arr : List (Branch × Addr)) (i : Nat) (y : Addr) (key : Branch) :
    Branches.isset (arr.modify i fun x => (x.1, y)) key = Branches.isset arr key := by
  induction arr generalizing i with
  | nil => rw [List.modify_nil]
  | cons x arr ih =>
    cases i with
    | zero => rfl
    | succ i =>
      rw [List.modify_succ_cons, isset_cons, isset_cons, ih i]

include hfits in
theorem size_create2 (dst : Bytes) {pre : Key} (hpre : pre.length ≤ 255) {key1 key2 : Branch}
    (hne : key1 ≠ key2) :
    size (create2 hashSize dst pre key1 key2).1 = size2 hashSize pre.length key1 key2 := by
  apply (rep_create2 hfits dst hpre hne).1.size_of_two hne
  . intro key
    rw [TrieNode.isset, TrieNode.setLink, isset_modify, TrieNode.create2, TrieNode.createAdd,
      isset_insert, isset_cons, Bool.or_comm, beq_eq_decide]
    simp [Branches.isset, eq_comm]
  . rw [TrieNode.count, TrieNode.setLink, List.length_modify, TrieNode.create2, TrieNode.createAdd,
      length_insert]
    . rfl
    . exact List.pairwise_singleton _ _
    . rw [isset_cons]
      simp [Branches.isset, hne]

/-- The trie node is a finite map: over any calls its queries are those of the sorted branches, the sizes
computed before are enough and both ways to put a branch in agree. The assertion of `insert_branch` holds
if there are less than 256 branches: it refuses the last of the 257. -/
theorem trieNode_map (hfits : Fits hashSize) {b : Bytes} {t : TrieNode} (h : Built hashSize b t) :
    Agrees b t ∧ Follows hashSize b t ∧
      (∀ dst (pre : Key) key1 key2, pre.length ≤ 255 → key1 ≠ key2 →
        size (create2 hashSize dst pre key1 key2).1 ≤ size2 hashSize pre.length key1 key2) ∧
      ∀ key, t.isset key = false → (insertAsserts b key ↔ t.count < 256) := by
  have hrep := h.rep hfits
  refine ⟨hrep.agrees, hrep.follows hfits, ?_, ?_⟩
  . intro dst pre key1 key2 hpre hne
    rw [size_create2 hfits dst hpre hne]
  . intro key hunset
    rw [insertAsserts, hrep.isset_eq, hrep.count_eq, MAX_BRANCH_COUNT]
    exact and_iff_right hunset

/-- Without a hash the header is small enough. -/
theorem fits_zero : Fits 0 := by
  unfold Fits
  decide

/-- A byte, and then `NONE` in place. -/
theorem trieNode_map_two :
    let b := (insertBranch (create1 0 (fun _ => 0) [1] (some 97)) none).1
    arrayIndex b (some 97) = 1 ∧ next b none = 97 ∧ first b = -1 ∧ insertAsserts b (some 98) := by
  have h := trieNode_map fits_zero (@Built.insertBranch 0 _ _
    (@Built.create1 0 (fun _ => 0) [1] (by decide) (some 97)) none rfl _ rfl)
  exact ⟨h.1.arrayIndex (some 97), h.1.next none, h.1.first _ rfl, (h.2.2.2 (some 98) rfl).2 (by decide)⟩

/-- All bytes are there, `NONE` is the last branch to come. -/
theorem insertAsserts_full :
    ¬∀ b t, Built 0 b t → ∀ key, t.isset key = false → insertAsserts b key := by
  intro hall
  have hbuilt := @Built.createOffsets 0 (fun _ => 0) [] (by decide) (fun key => key.elim 0 fun _ => 1)
    (by
      intro key
      cases key with
      | none => decide
      | some c => exact (by decide : 1 < 2 ^ 64)) (2 ^ 8 - 1) (by decide) (by
      intro g hg
      rw [Nat.testBit_two_pow_sub_one, decide_eq_true_eq]
      exact iff_of_true hg ⟨0, by decide, rfl⟩)
  have hasserts := hall _ _ hbuilt none (by decide +kernel)
  have hcount : (ofOffsets fun key => key.elim 0 fun _ => 1).length = 256 := by decide +kernel
  have hlt := hasserts.2
  rw [(hbuilt.rep fits_zero).count_eq, TrieNode.count, hcount] at hlt
  exact absurd hlt (by decide)

end Layout
end Leaves
