import Leaves.Core.Branch

/-!
The nodes of the trie, `core/_node.hpp`. A trie node has a compressed string and an array of
branches, a leaf the rest of its key and its value. Every node but the root starts with the branch
key it hangs under, so a string of a node is never split from its branch.
-/

namespace Leaves

/-- An offset into the storage, 0 is the null offset. -/
abbrev Addr := Nat

/-- `sizeof(PageHeader)` -/
def PAGE_HEADER_SIZE : Nat := 8

/-- The biggest size class of pages. -/
def MAX_PAGE_SIZE : Nat := 4096

/-- A node of `size` bytes fits into a page. -/
def fitsPage (size : Nat) : Bool := size + PAGE_HEADER_SIZE ≤ MAX_PAGE_SIZE

theorem fitsPage_iff {size : Nat} : fitsPage size = true ↔ size ≤ 4088 := by
  rw [fitsPage, decide_eq_true_eq, PAGE_HEADER_SIZE, MAX_PAGE_SIZE]
  omega

theorem fitsPage_mono {size size' : Nat} (h : fitsPage size = true) (hle : size' ≤ size) :
    fitsPage size' = true := by
  rw [fitsPage_iff] at h ⊢
  omega

def padding (a b : Nat) : Nat := (a + b - 1) / b * b

/-- Round up to the size of an offset. -/
def align (s : Nat) : Nat := (s + 7) / 8 * 8

structure TrieNode where
  compressed : Key
  array : List (Branch × Addr)
  deriving DecidableEq, Repr, Inhabited

namespace TrieNode

def HEADER_SIZE : Nat := 7

def len (t : TrieNode) : Nat := t.compressed.length

def count (t : TrieNode) : Nat := t.array.length

def hasNone (t : TrieNode) : Bool := Branches.isset t.array none

def isset (t : TrieNode) (key : Branch) : Bool := Branches.isset t.array key

def arrayIndex (t : TrieNode) (key : Branch) : Option Nat := Branches.arrayIndex t.array key

def next (t : TrieNode) (key : Branch) : Option Branch := Branches.next t.array key

def prev (t : TrieNode) (key : Branch) : Option Branch := Branches.prev t.array key

/-- The offset in `array()[idx]`. -/
def link (t : TrieNode) (idx : Nat) : Addr := (t.array[idx]?.map (·.2)).getD 0

def setLink (t : TrieNode) (idx : Nat) (addr : Addr) : TrieNode :=
  { t with array := t.array.modify idx (fun x => (x.1, addr)) }

/-- The upper bitmap groups branch keys by their upper three bits. -/
def ubit (b : UInt8) : Nat := b.toNat / 32

/-- The bits of the upper bitmap that are set. -/
def upper (arr : List (Branch × Addr)) : List Nat :=
  (List.range 8).filter (fun u => arr.any (fun x => x.1.map ubit == some u))

def lowerSize (t : TrieNode) : Nat := 4 * (upper t.array).length

def size (t : TrieNode) : Nat :=
  align (padding (HEADER_SIZE + t.len) 4 + t.lowerSize) + 8 * t.count

/-- The size of the node when its compressed string is replaced by one of length `newLen`. -/
def changedLen (t : TrieNode) (newLen : Nat) : Nat :=
  align (padding (HEADER_SIZE + newLen) 4 + t.lowerSize + 8 * t.count)

/-- The size of the node with the additional branch `key`. -/
def incrementSize (t : TrieNode) (key : Branch) : Nat :=
  let lower :=
    match key with
    | none => t.lowerSize
    | some b => if (upper t.array).contains (ubit b) then t.lowerSize else t.lowerSize + 4
  align (padding (HEADER_SIZE + t.len) 4 + lower + 8 * (t.count + 1))

/-- The size of the node without the branch `key`. -/
def decrementSize (t : TrieNode) (key : Branch) : Nat :=
  let lower := 4 * (upper (Branches.remove t.array key)).length
  align (padding (HEADER_SIZE + t.len) 4 + lower + 8 * (t.count - 1))

/-- The size of a node with the two branches `key1` and `key2`. -/
def size2 (prefixLen : Nat) (key1 key2 : Branch) : Nat :=
  let lower :=
    match key1, key2 with
    | some b1, some b2 => if ubit b1 = ubit b2 then 4 else 8
    | _, _ => 4
  align (padding (HEADER_SIZE + prefixLen) 4 + lower) + 16

/-- The size a node with `branches` branches needs at most. -/
def sizeMax (prefixLen : Nat) (branches : Nat) : Nat :=
  align (padding (HEADER_SIZE + prefixLen) 4 + 4 * min branches 8 + 8 * branches)

/-- `create(prefix, key)` with the link of the branch still unset. -/
def create1 (compressed : Key) (key : Branch) : TrieNode := { compressed, array := [(key, 0)] }

/-- `create(src, prefix)` -/
def createPrefix (src : TrieNode) (compressed : Key) : TrieNode := { src with compressed }

/-- `create(src, key)` and `insert_branch(key)` with the link of the new branch still unset. -/
def createAdd (src : TrieNode) (key : Branch) : TrieNode :=
  { src with array := Branches.insert src.array key 0 }

/-- The index `create(src, key)` and `insert_branch(key)` return. -/
def addIndex (src : TrieNode) (key : Branch) : Nat := (Branches.below src.array key).length

/--
`create(prefix, key1, key2)` with the link of `key1` written, the link of `key2` is still unset.
-/
def create2 (compressed : Key) (key1 : Branch) (link1 : Addr) (key2 : Branch) : TrieNode :=
  createAdd { compressed, array := [(key1, link1)] } key2

/-- The index of `key2` that `create(prefix, key1, key2)` returns. -/
def index2 (key1 key2 : Branch) : Nat := (Branches.below [(key1, (0 : Addr))] key2).length

def createRemove (src : TrieNode) (key : Branch) : TrieNode :=
  { src with array := Branches.remove src.array key }

section Size

variable (t : TrieNode)

theorem length_upper_le (arr : List (Branch × Addr)) : (upper arr).length ≤ 8 := by
  have : (upper arr).length ≤ (List.range 8).length := List.length_filter_le _ _
  rwa [List.length_range] at this

theorem lowerSize_le : t.lowerSize ≤ 32 := by
  have := length_upper_le t.array
  rw [lowerSize]
  omega

theorem padding_le (n : Nat) (h : n ≤ 255) : padding (HEADER_SIZE + n) 4 ≤ 264 := by
  rw [padding, HEADER_SIZE]
  omega

theorem align_le (s : Nat) : align s ≤ s + 7 := by
  rw [align]
  omega

theorem changedLen_le {newLen : Nat} (hlen : newLen ≤ 255) (hcount : t.count ≤ 257) :
    t.changedLen newLen ≤ 2359 := by
  have h1 := padding_le newLen hlen
  have h2 := t.lowerSize_le
  have h3 := align_le (padding (HEADER_SIZE + newLen) 4 + t.lowerSize + 8 * t.count)
  rw [changedLen]
  omega

theorem incrementSize_le (key : Branch) (hlen : t.len ≤ 255) (hcount : t.count ≤ 256) :
    t.incrementSize key ≤ 2363 := by
  have h1 := padding_le t.len hlen
  have h2 := t.lowerSize_le
  have hlower : ∀ lower, lower ≤ t.lowerSize + 4 →
      align (padding (HEADER_SIZE + t.len) 4 + lower + 8 * (t.count + 1)) ≤ 2363 := by
    intro lower hlower
    have := align_le (padding (HEADER_SIZE + t.len) 4 + lower + 8 * (t.count + 1))
    omega
  cases key with
  | none => exact hlower t.lowerSize (by omega)
  | some b =>
    refine hlower _ ?_
    dsimp only
    split <;> omega

theorem decrementSize_le (key : Branch) (hlen : t.len ≤ 255) (hcount : t.count ≤ 257) :
    t.decrementSize key ≤ 2359 := by
  have h1 := padding_le t.len hlen
  have h2 := length_upper_le (Branches.remove t.array key)
  have h3 := align_le (padding (HEADER_SIZE + t.len) 4 +
    4 * (upper (Branches.remove t.array key)).length + 8 * (t.count - 1))
  rw [decrementSize]
  omega

theorem size2_le {prefixLen : Nat} (hlen : prefixLen ≤ 255) (key1 key2 : Branch) :
    size2 prefixLen key1 key2 ≤ 295 := by
  have h1 := padding_le prefixLen hlen
  have hlower : ∀ lower, lower ≤ 8 →
      align (padding (HEADER_SIZE + prefixLen) 4 + lower) + 16 ≤ 295 := by
    intro lower hlower
    have := align_le (padding (HEADER_SIZE + prefixLen) 4 + lower)
    omega
  cases key1 with
  | none => exact hlower 4 (by omega)
  | some b1 =>
    cases key2 with
    | none => exact hlower 4 (by omega)
    | some b2 =>
      refine hlower _ ?_
      dsimp only
      split <;> omega

end Size

end TrieNode

structure LeafNode where
  key : Key
  /-- `BIG_VALUE_FLAG` -/
  big : Bool
  vdata : List UInt8
  deriving DecidableEq, Repr, Inhabited

namespace LeafNode

def HEADER_SIZE : Nat := 3

def sizeOf (keySize valueSize : Nat) : Nat := HEADER_SIZE + keySize + valueSize

def vsize (l : LeafNode) : Nat := l.vdata.length

def size (l : LeafNode) : Nat := sizeOf l.key.length l.vsize

end LeafNode

inductive Node where
  | trie (t : TrieNode)
  | leaf (l : LeafNode)
  deriving DecidableEq, Repr, Inhabited

end Leaves
