import Leaves.Lib.Linked
import Leaves.Lib.Ranges
import Leaves.Memory.Disjointness

/-!
The areas of a storage file, `AreaList` and `AreaPool` of `memory/_memory.hpp` over the file of
`storage/_mmap.hpp`. A free area is in one of the two lists of the pool, the links are kept in the
areas themselves.
-/

namespace Leaves

/-- The head of an area. The size is a `uint32_t`, the offset is left out: it is where the head is.
-/
structure AreaHead where
  size : Nat
  next : Nat
  deriving DecidableEq, Repr

/-- The heads of the areas, by the offset. -/
structure Areas where
  head : Nat → AreaHead

namespace Areas

def next (m : Areas) (a : Nat) : Nat := (m.head a).next

def size (m : Areas) (a : Nat) : Nat := (m.head a).size

/-- `Area::init`: the size is cut to 32 bits. -/
def init (m : Areas) (a size next : Nat) : Areas :=
  ⟨Function.update m.head a ⟨size % 2 ^ 32, next⟩⟩

def setNext (m : Areas) (a next : Nat) : Areas :=
  ⟨Function.update m.head a { m.head a with next }⟩

def setSize (m : Areas) (a size : Nat) : Areas :=
  ⟨Function.update m.head a { m.head a with size := size % 2 ^ 32 }⟩

def range (m : Areas) (a : Nat) : Range := ⟨a, m.size a⟩

end Areas

/-- A list as two pairs of pointers, of which one is active. -/
structure AreaList where
  head : Bool → Nat
  tail : Bool → Nat
  active : Bool

namespace AreaList

def MAX_ITER : Nat := 10

def init : AreaList := ⟨fun _ => 0, fun _ => 0, false⟩

def getHead (l : AreaList) : Nat := l.head l.active

def getTail (l : AreaList) : Nat := l.tail l.active

/-- The inactive pair is written, then it becomes the active one. -/
def atomicSwitch (l : AreaList) (newHead newTail : Nat) : AreaList :=
  { head := Function.update l.head (!l.active) newHead,
    tail := Function.update l.tail (!l.active) newTail,
    active := !l.active }

def pop (l : AreaList) (m : Areas) : Option (AreaList × Nat) :=
  if l.getHead = 0 then
    none
  else
    let newHead := m.next l.getHead
    let newTail := if newHead = 0 then 0 else l.getTail
    some (l.atomicSwitch newHead newTail, l.getHead)

def push (l : AreaList) (m : Areas) (a : Nat) : AreaList × Areas :=
  (l.atomicSwitch a (if l.getTail = 0 then a else l.getTail), m.init a (m.size a) l.getHead)

/-- The loop of `find_and_remove`: a big enough area and the one before it, 0 if it is the first. -/
def find (m : Areas) (size : Nat) : Nat → Nat → Nat → Option (Nat × Nat)
  | 0, _, _ => none
  | n + 1, prev, curr =>
    if curr = 0 then
      none
    else if size ≤ m.size curr then
      some (prev, curr)
    else
      find m size n curr (m.next curr)

/-- The area is passed over: the links, the new head and the new tail. -/
def unlink (l : AreaList) (m : Areas) (prev curr : Nat) : Areas × Nat × Nat :=
  if prev = 0 then
    (m, m.next curr, if curr = l.getTail then 0 else l.getTail)
  else
    (m.setNext prev (m.next curr), l.getHead, if curr = l.getTail then prev else l.getTail)

/-- What the area has too much becomes an area of its own before the head. -/
def splitRest (m : Areas) (size curr newHead : Nat) : Areas × Nat :=
  if size < m.size curr then
    ((m.init (curr + size) (m.size curr - size) newHead).setSize curr size, curr + size)
  else
    (m, newHead)

def findAndRemove (l : AreaList) (m : Areas) (size : Nat) : Option (AreaList × Areas × Nat) :=
  match find m size MAX_ITER 0 l.getHead with
  | none => none
  | some (prev, curr) =>
    let (m, newHead, newTail) := l.unlink m prev curr
    let (m, newHead) := splitRest m size curr newHead
    let newTail := if newTail = 0 then newHead else newTail
    some (l.atomicSwitch newHead newTail, m, curr)

/-- Another list is put behind this one. -/
def add (l : AreaList) (m : Areas) (otherHead otherTail : Nat) : AreaList × Areas :=
  if otherHead = 0 then
    (l, m)
  else if l.getHead = 0 then
    (l.atomicSwitch otherHead otherTail, m)
  else
    (l.atomicSwitch l.getHead otherTail, m.setNext l.getTail otherHead)

end AreaList

/-- The file with the pool in its header. The memory is mapped up to `regionSize`. -/
structure AreaFile where
  regionSize : Nat
  fileSize : Nat
  areas : Areas
  singleAreas : AreaList
  multiAreas : AreaList

namespace AreaFile

/-- A new file: the first area is taken by the file header. -/
def init (regionSize : Nat) : AreaFile :=
  { regionSize, fileSize := AREA_SIZE, areas := ⟨fun _ => ⟨0, 0⟩⟩, singleAreas := AreaList.init,
    multiAreas := AreaList.init }

/-- `AreaPool::alloc_single_area` -/
def poolSingle (f : AreaFile) : Option (AreaFile × Nat) :=
  match f.singleAreas.pop f.areas with
  | some (l, a) => some ({ f with singleAreas := l, areas := f.areas.setNext a 0 }, a)
  | none =>
    match f.multiAreas.findAndRemove f.areas AREA_SIZE with
    | some (l, m, a) => some ({ f with multiAreas := l, areas := m.setNext a 0 }, a)
    | none => none

/-- `AreaPool::alloc_multi_area` -/
def poolMulti (f : AreaFile) (size : Nat) : Option (AreaFile × Nat) :=
  match f.multiAreas.findAndRemove f.areas size with
  | some (l, m, a) => some ({ f with multiAreas := l, areas := m.setNext a 0 }, a)
  | none => none

/-- By how much the file grows: a quarter, ten areas or what is asked for. -/
def totalGrowth (f : AreaFile) (size : Nat) : Nat :=
  padding (max (max size (10 * AREA_SIZE)) (f.fileSize / 4)) AREA_SIZE

/-- The new end of the file is cut into the area that is asked for and a free one. `none` is the
exception `StorageFull`. -/
def resizeFile (f : AreaFile) (size : Nat) : Option (AreaFile × Nat) :=
  let totalGrowth := f.totalGrowth size
  if f.regionSize < f.fileSize + totalGrowth then
    none
  else
    let newOffset := f.fileSize
    let m := f.areas.init newOffset size 0
    let f := { f with fileSize := f.fileSize + totalGrowth, areas := m }
    if size < totalGrowth then
      let extra := newOffset + size
      let (l, m) := f.multiAreas.push (m.init extra (totalGrowth - size) 0) extra
      some ({ f with areas := m, multiAreas := l }, newOffset)
    else
      some (f, newOffset)

def allocSingleArea (f : AreaFile) : Option (AreaFile × Nat) :=
  match f.poolSingle with
  | some r => some r
  | none => f.resizeFile AREA_SIZE

def allocMultiArea (f : AreaFile) (size : Nat) : Option (AreaFile × Nat) :=
  match f.poolMulti (padding size AREA_SIZE) with
  | some r => some r
  | none => f.resizeFile (padding size AREA_SIZE)

def returnSingleAreas (f : AreaFile) (head tail : Nat) : AreaFile :=
  let (l, m) := f.singleAreas.add f.areas head tail
  { f with singleAreas := l, areas := m }

def returnMultiAreas (f : AreaFile) (head tail : Nat) : AreaFile :=
  let (l, m) := f.multiAreas.add f.areas head tail
  { f with multiAreas := l, areas := m }

end AreaFile
end Leaves
