import Leaves.Core.Bitmap
import Leaves.Core.Bytes
import Leaves.Core.Node

/-!
`_TrieNode` of `core/_node.hpp` in memory: the fields of the header, the bytes of the prefix, the lower
bitmaps and the links. `hashSize` is `HASH_SIZE`, the hash itself is left out.
-/

namespace Leaves
namespace Layout

open Bits

def NULL_MASK : Nat := 1 <<< 15

/-- The bytes and `NONE`. -/
def MAX_BRANCH_COUNT : Nat := 257

def OUT_OF_RANGE : Int := -2

section Fields

variable (b : Bytes)

def arrayLen : Nat := b.u16 0

def upper : Nat := b.u8 2

def compressedLen : Nat := b.u8 3

def lowerOffset : Nat := b.u8 4

def arrayOffset : Nat := b.u8 5

/-- `_array_len & ~NULL_MASK` -/
def count : Nat := arrayLen b &&& (NULL_MASK - 1)

def hasNone : Bool := arrayLen b &&& NULL_MASK ≠ 0

def lowerSize : Nat := Bits.count (upper b) * 4

def lowerStart : Nat := lowerOffset b * 4

def lower (i : Nat) : Nat := b.u32 (lowerStart b + 4 * i)

def arrayStart : Nat := arrayOffset b * 8

def arraySize : Nat := count b * 8

def array (i : Nat) : Nat := b.u64 (arrayStart b + 8 * i)

def size : Nat := arrayStart b + arraySize b

end Fields

def ubit (val : UInt8) : Nat := val.toNat >>> 5

def lbit (val : UInt8) : Nat := val.toNat &&& 31

/-- `bits & (1u << bit)` as a condition. -/
def hasBit (bits bit : Nat) : Bool := bits &&& 1 <<< bit ≠ 0

/-- `(upper << 5) | lower`, where -1 has all of the bits. -/
def joinBits (upper lower : Int) : Int := if lower < 0 then lower else 32 * upper + lower

/-- The index of a branch: the bits in front of it in its lower bitmap, and all the bits of the lower
bitmaps before that one. -/
def branchIndex (w : Nat → Nat) (none_ : Bool) (lidx bit : Nat) : Nat :=
  Bits.count (w lidx &&& ((1 <<< bit) - 1)) + none_.toNat + Bitmap.sum w lidx

section Queries

variable (b : Bytes)

def isset : Branch → Bool
  | none => hasNone b
  | some c =>
    hasBit (upper b) (ubit c) && hasBit (lower b (Bits.index (upper b) (ubit c))) (lbit c)

def arrayIndex : Branch → Int
  | none => if hasNone b then 0 else -1
  | some c =>
    let lidx := Bits.index (upper b) (ubit c)
    if hasBit (upper b) (ubit c) then
      if hasBit (lower b lidx) (lbit c) then
        branchIndex (lower b) (hasNone b) lidx (lbit c)
      else
        -1
    else
      -1

def prevLower (c : UInt8) : Int :=
  let lidx := Bits.prev (upper b) (ubit c)
  if lidx < 0 then
    if hasNone b then Branch.toInt none else OUT_OF_RANGE
  else
    joinBits lidx (Bits.last (lower b (Bits.index (upper b) lidx.toNat)))

def prev : Branch → Int
  | none => OUT_OF_RANGE
  | some c =>
    if hasBit (upper b) (ubit c) then
      let lbitIdx := Bits.prev (lower b (Bits.index (upper b) (ubit c))) (lbit c)
      if lbitIdx < 0 then prevLower b c else joinBits (ubit c) lbitIdx
    else
      prevLower b c

def nextLower (c : UInt8) : Int :=
  let lidx := Bits.next (upper b) (ubit c)
  if lidx < 0 then
    OUT_OF_RANGE
  else
    joinBits lidx (Bits.first (lower b (Bits.index (upper b) lidx.toNat)))

def next : Branch → Int
  | none =>
    let lidx := Bits.first (upper b)
    if lidx < 0 then OUT_OF_RANGE else joinBits lidx (Bits.first (lower b 0))
  | some c =>
    if hasBit (upper b) (ubit c) then
      let lbitIdx := Bits.next (lower b (Bits.index (upper b) (ubit c))) (lbit c)
      if lbitIdx < 0 then nextLower b c else joinBits (ubit c) lbitIdx
    else
      nextLower b c

def first : Int :=
  if hasNone b then
    Branch.toInt none
  else
    joinBits (Bits.first (upper b)) (Bits.first (lower b 0))

/-- The inner loop of `for_each_branch`, which takes a bit away in each round: the branches and their
links, and the next index. -/
def lowerBranches (group : Int) : Nat → Nat → Nat → List (Int × Nat) × Nat
  | 0, _, arrIdx => ([], arrIdx)
  | n + 1, remaining, arrIdx =>
    if remaining = 0 then
      ([], arrIdx)
    else
      let r := lowerBranches group n (clearFirst remaining) (arrIdx + 1)
      ((joinBits group (Bits.first remaining), array b arrIdx) :: r.1, r.2)

/-- The outer loop. -/
def upperBranches : Nat → Nat → Nat → Nat → List (Int × Nat)
  | 0, _, _, _ => []
  | n + 1, remaining, lowerIdx, arrIdx =>
    if remaining = 0 then
      []
    else
      let r := lowerBranches b (Bits.first remaining) 32 (lower b lowerIdx) arrIdx
      r.1 ++ upperBranches n (clearFirst remaining) (lowerIdx + 1) r.2

/-- What `for_each_branch` calls the function with. -/
def forEachBranch : List (Int × Nat) :=
  if hasNone b then
    (Branch.toInt none, array b 0) :: upperBranches b 8 (upper b) 0 1
  else
    upperBranches b 8 (upper b) 0 0

end Queries

variable (hashSize : Nat)

/-- `sizeof(Header)`, with the first byte of the prefix. -/
def HEADER_SIZE : Nat := TrieNode.HEADER_SIZE + hashSize

/-- The offset of `_compressed_data`. -/
def dataStart : Nat := 6 + hashSize

def compressed (b : Bytes) : Key := b.read (dataStart hashSize) (compressedLen b)

def prefixSize (len : Nat) : Nat := padding (HEADER_SIZE hashSize + len) 4

def changedLen (b : Bytes) (newCompressedLen : Nat) : Nat :=
  align (prefixSize hashSize newCompressedLen + lowerSize b + arraySize b)

def incrementSize (b : Bytes) (key : Branch) : Nat :=
  let lowerSize_ :=
    match key with
    | none => lowerSize b
    | some c => if hasBit (upper b) (ubit c) then lowerSize b else lowerSize b + 4
  align (prefixSize hashSize (compressedLen b) + lowerSize_ + (count b + 1) * 8)

def decrementSize (b : Bytes) (key : Branch) : Nat :=
  let lowerSize_ :=
    match key with
    | none => lowerSize b
    | some c =>
      if hasBit (upper b) (ubit c) ∧ Bits.count (lower b (Bits.index (upper b) (ubit c))) = 1 then
        lowerSize b - 4
      else
        lowerSize b
  align (prefixSize hashSize (compressedLen b) + lowerSize_ + (count b - 1) * 8)

/-- `size(prefix, key1, key2)` -/
def size2 (prefixLen : Nat) (key1 key2 : Branch) : Nat :=
  let lowerSize_ :=
    match key1, key2 with
    | some c1, some c2 => if ubit c1 = ubit c2 then 4 else 8
    | _, _ => 4
  align (prefixSize hashSize prefixLen + lowerSize_) + 2 * 8

/-- `size(prefix, branches)` -/
def sizeMax (prefixLen branches : Nat) : Nat :=
  align (prefixSize hashSize prefixLen + min branches 8 * 4 + branches * 8)

/-- The fields of the header are written, in any order. -/
def setFields (b : Bytes) (arrayLen upper len lowerStart arrayStart : Nat) : Bytes :=
  ((((b.setU16 0 arrayLen).setU8 2 upper).setU8 3 len).setU8 4 (lowerStart / 4)).setU8 5
    (arrayStart / 8)

section Create

variable (dst : Bytes)

/-- `create(prefix, key1, key2)` for keys in their order. -/
def createOrdered (pre : Key) (key1 : Branch) (c2 : UInt8) : Bytes :=
  let b := dst.write (dataStart hashSize) pre
  let lowerStart := prefixSize hashSize pre.length
  match key1 with
  | some c1 =>
    let upper := 1 <<< ubit c1 ||| 1 <<< ubit c2
    if Bits.count upper = 1 then
      setFields (b.setU32 lowerStart (1 <<< lbit c1 ||| 1 <<< lbit c2)) 2 upper pre.length lowerStart
        (align (lowerStart + 4))
    else
      setFields ((b.setU32 lowerStart (1 <<< lbit c1)).setU32 (lowerStart + 4) (1 <<< lbit c2)) 2
        upper pre.length lowerStart (align (lowerStart + 2 * 4))
  | none =>
    setFields (b.setU32 lowerStart (1 <<< lbit c2)) (2 ||| NULL_MASK) (1 <<< ubit c2) pre.length
      lowerStart (align (lowerStart + 4))

/-- `create(prefix, key1, key2)`, where the keys are not the same. -/
def create2 (pre : Key) (key1 key2 : Branch) : Bytes × Nat × Nat :=
  if key2.toInt < key1.toInt then
    match key1 with
    | some c1 => (createOrdered hashSize dst pre key2 c1, 1, 0)
    | none => (dst, 1, 0)
  else
    match key2 with
    | some c2 => (createOrdered hashSize dst pre key1 c2, 0, 1)
    | none => (dst, 0, 1)

/-- `create(prefix, key)` -/
def create1 (pre : Key) (key : Branch) : Bytes :=
  let b := dst.write (dataStart hashSize) pre
  let lowerStart := prefixSize hashSize pre.length
  match key with
  | some c =>
    setFields (b.setU32 lowerStart (1 <<< lbit c)) 1 (1 <<< ubit c) pre.length lowerStart
      (align (lowerStart + 4))
  | none => setFields b (1 ||| NULL_MASK) 0 pre.length lowerStart (align lowerStart)

variable (src : Bytes)

/-- `create(src, prefix)` -/
def createPrefix (pre : Key) : Bytes :=
  let b := dst.write (dataStart hashSize) pre
  let bcount := Bits.count (upper src)
  let lowerStart_ := prefixSize hashSize pre.length
  let arrayStart_ := align (lowerStart_ + bcount * 4)
  let b := b.memcpy lowerStart_ src (lowerStart src) (bcount * 4)
  let b := b.memcpy arrayStart_ src (arrayStart src) (count src * 8)
  setFields b (arrayLen src) (upper src) pre.length lowerStart_ arrayStart_

/-- The links around the index, and the header. -/
def openArray (b : Bytes) (arrayLen upper_ oidx : Nat) : Bytes :=
  let len := compressedLen src
  let lowerStart_ := prefixSize hashSize len
  let arrayStart_ := align (lowerStart_ + Bits.count upper_ * 4)
  let b := b.memcpy arrayStart_ src (arrayStart src) (oidx * 8)
  let b := b.memcpy (arrayStart_ + (oidx + 1) * 8) src (arrayStart src + oidx * 8)
    ((count src - oidx) * 8)
  setFields b arrayLen upper_ len lowerStart_ arrayStart_

/-- `create(src, key)`, with the index it returns. -/
def createBranch (key : Branch) : Bytes × Nat :=
  let b := dst.write (dataStart hashSize) (compressed hashSize src)
  let lowerStart_ := prefixSize hashSize (compressedLen src)
  match key with
  | some c =>
    let upper_ := upper src ||| 1 <<< ubit c
    let lidx := Bits.index upper_ (ubit c)
    let b :=
      if hasBit (upper src) (ubit c) then
        let b := b.memcpy lowerStart_ src (lowerStart src) (Bits.count upper_ * 4)
        b.setU32 (lowerStart_ + 4 * lidx) (b.u32 (lowerStart_ + 4 * lidx) ||| 1 <<< lbit c)
      else
        let b := b.memcpy lowerStart_ src (lowerStart src) (lidx * 4)
        let b := b.memcpy (lowerStart_ + 4 * (lidx + 1)) src (lowerStart src + 4 * lidx)
          ((Bits.count (upper src) - lidx) * 4)
        b.setU32 (lowerStart_ + 4 * lidx) (1 <<< lbit c)
    let oidx := branchIndex (fun i => b.u32 (lowerStart_ + 4 * i)) (hasNone src) lidx (lbit c)
    (openArray hashSize src b (arrayLen src + 1) upper_ oidx, oidx)
  | none =>
    let b := b.memcpy lowerStart_ src (lowerStart src) (Bits.count (upper src) * 4)
    (openArray hashSize src b (arrayLen src + 1 ||| NULL_MASK) (upper src) 0, 0)

/-- The links but for the one at the index, and the header. -/
def closeArray (b : Bytes) (arrayLen upper_ oidx : Nat) : Bytes :=
  let len := compressedLen src
  let lowerStart_ := prefixSize hashSize len
  let arrayStart_ := align (lowerStart_ + Bits.count upper_ * 4)
  let b := b.memcpy arrayStart_ src (arrayStart src) (oidx * 8)
  let b := b.memcpy (arrayStart_ + oidx * 8) src (arrayStart src + (oidx + 1) * 8)
    ((count src - 1 - oidx) * 8)
  setFields b arrayLen upper_ len lowerStart_ arrayStart_

/-- `create_remove(src, key)` -/
def createRemove (key : Branch) : Bytes :=
  let b := dst.write (dataStart hashSize) (compressed hashSize src)
  let lowerStart_ := prefixSize hashSize (compressedLen src)
  match key with
  | some c =>
    let lidx := Bits.index (upper src) (ubit c)
    let oidx := branchIndex (lower src) (hasNone src) lidx (lbit c)
    let newLowerVal := lower src lidx &&& complement (1 <<< lbit c)
    if newLowerVal = 0 then
      let upper_ := upper src &&& complement (1 <<< ubit c)
      let b := b.memcpy lowerStart_ src (lowerStart src) (lidx * 4)
      let b := b.memcpy (lowerStart_ + 4 * lidx) src (lowerStart src + 4 * (lidx + 1))
        ((Bits.count (upper src) - lidx - 1) * 4)
      closeArray hashSize src b (arrayLen src - 1) upper_ oidx
    else
      let b := b.memcpy lowerStart_ src (lowerStart src) (Bits.count (upper src) * 4)
      let b := b.setU32 (lowerStart_ + 4 * lidx) newLowerVal
      closeArray hashSize src b (arrayLen src - 1) (upper src) oidx
  | none =>
    let b := b.memcpy lowerStart_ src (lowerStart src) (Bits.count (upper src) * 4)
    closeArray hashSize src b ((arrayLen src - 1) &&& (NULL_MASK - 1)) (upper src) 0

end Create

section Insert

variable (b : Bytes)

/-- The assertions of `insert_branch`. -/
def insertAsserts (key : Branch) : Prop := isset b key = false ∧ count b < MAX_BRANCH_COUNT - 1

instance (key : Branch) : Decidable (insertAsserts b key) := inferInstanceAs (Decidable (_ ∧ _))

/-- The part of `insert_branch` for a byte whose group is there. -/
def insertOld (c : UInt8) : Bytes × Nat :=
  let lidx := Bits.index (upper b) (ubit c)
  let oidx := branchIndex (lower b) (hasNone b) lidx (lbit c)
  let b' := b.setU32 (lowerStart b + 4 * lidx) (lower b lidx ||| 1 <<< lbit c)
  let b' := b'.memmove (arrayStart b + (oidx + 1) * 8) (arrayStart b + oidx * 8)
    ((count b - oidx) * 8)
  (b'.setU16 0 (arrayLen b + 1), oidx)

/-- The part of `insert_branch` for the first byte of a group. -/
def insertNew (c : UInt8) : Bytes × Nat :=
  let ls := lowerStart b
  let oldBcount := Bits.count (upper b)
  let upper_ := upper b ||| 1 <<< ubit c
  let newLidx := Bits.index upper_ (ubit c)
  let oidx := (hasNone b).toNat + Bitmap.sum (lower b) newLidx
  let oldAs := align (ls + oldBcount * 4)
  let newAs := align (ls + (oldBcount + 1) * 4)
  let b' := b.setU8 2 upper_
  let b' :=
    if 0 < newAs - oldAs then
      let b' := b'.memmove (newAs + (oidx + 1) * 8) (oldAs + oidx * 8) ((count b - oidx) * 8)
      let b' := if 0 < oidx then b'.memmove newAs oldAs (oidx * 8) else b'
      let b' := b'.memmove (ls + 4 * (newLidx + 1)) (ls + 4 * newLidx) ((oldBcount - newLidx) * 4)
      b'.setU32 (ls + 4 * newLidx) (1 <<< lbit c)
    else
      let b' := b'.memmove (ls + 4 * (newLidx + 1)) (ls + 4 * newLidx) ((oldBcount - newLidx) * 4)
      let b' := b'.setU32 (ls + 4 * newLidx) (1 <<< lbit c)
      b'.memmove (oldAs + (oidx + 1) * 8) (oldAs + oidx * 8) ((count b - oidx) * 8)
  ((b'.setU8 5 (newAs / 8)).setU16 0 (arrayLen b + 1), oidx)

/-- `insert_branch(key)`, with the index it returns. -/
def insertBranch (key : Branch) : Bytes × Nat :=
  match key with
  | none =>
    let b' := b.memmove (arrayStart b + 8) (arrayStart b) (count b * 8)
    (b'.setU16 0 (arrayLen b + 1 ||| NULL_MASK), 0)
  | some c => if hasBit (upper b) (ubit c) then insertOld b c else insertNew b c

/-- The caller writes the link at the index. -/
def setLink (idx link : Nat) : Bytes := b.setU64 (arrayStart b + 8 * idx) link

end Insert

section Offsets

variable (offsets : Branch → Nat)

/-- A round of the loop over a group: the memory, the number of branches and the lower bitmap. -/
def offsetsBit (arrayStart base : Nat) (s : Bytes × Nat × Nat) (j : Nat) : Bytes × Nat × Nat :=
  let link := offsets (some (UInt8.ofNat (base + j)))
  if link ≠ 0 then
    (s.1.setU64 (arrayStart + 8 * s.2.1) link, s.2.1 + 1, s.2.2 ||| 1 <<< j)
  else
    s

/-- The loop over the groups, which takes one away in each round. -/
def offsetsLoop (upper lowerStart arrayStart : Nat) : Nat → Nat → Bytes × Nat → Bytes × Nat
  | 0, _, s => s
  | n + 1, remaining, s =>
    if remaining = 0 then
      s
    else
      let grp := countrZero remaining
      let r := (List.range 32).foldl (offsetsBit offsets arrayStart (grp <<< 5)) (s.1, s.2, 0)
      offsetsLoop upper lowerStart arrayStart n (clearFirst remaining)
        (r.1.setU32 (lowerStart + 4 * Bits.index upper grp) r.2.2, r.2.1)

/-- `create(prefix, offsets, precomputed_upper)` -/
def createOffsets (dst : Bytes) (pre : Key) (precomputedUpper : Nat) : Bytes :=
  let b := dst.write (dataStart hashSize) pre
  let lowerStart := prefixSize hashSize pre.length
  let bcount := Bits.count precomputedUpper
  let arrayStart := align (lowerStart + bcount * 4)
  -- `memset`
  let b := b.write lowerStart (List.replicate (bcount * 4) 0)
  if offsets none ≠ 0 then
    let r := offsetsLoop offsets precomputedUpper lowerStart arrayStart 8 precomputedUpper
      (b.setU64 arrayStart (offsets none), 1)
    setFields r.1 (r.2 ||| NULL_MASK) precomputedUpper pre.length lowerStart arrayStart
  else
    let r := offsetsLoop offsets precomputedUpper lowerStart arrayStart 8 precomputedUpper (b, 0)
    setFields r.1 r.2 precomputedUpper pre.length lowerStart arrayStart

end Offsets

end Layout
end Leaves
