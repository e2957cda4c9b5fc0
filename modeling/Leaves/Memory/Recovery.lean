import Leaves.Memory.Areas
import Mathlib.Data.Finset.Insert

/-!
`_recover_areas` of `memory/_memory.hpp`: after a crash the pool is built anew from the areas that
no database owns. `areaSize` is the template parameter `AREA_SIZE`, the offsets that are written
into the heads are left out.
-/

namespace Leaves

/-- What `read_bytes` finds in a file: the head of an area, and the heads of the two lists in the
header of a database. The offsets have 64 bits, the sizes have 32 bits. -/
structure FileImage where
  areas : Areas
  areaListHeads : Nat → Nat × Nat
  next_lt : ∀ a, areas.next a < 2 ^ 64
  size_lt : ∀ a, areas.size a < 2 ^ 32
  heads_lt : ∀ db, (areaListHeads db).1 < 2 ^ 64 ∧ (areaListHeads db).2 < 2 ^ 64

/-- The blocks that are known to be occupied are collected in a set. -/
abbrev Occupied := Finset Nat

/-- The loop of `mark_occupied_range`, which has at most as many rounds as there are bytes. -/
def markOccupiedRange (areaSize : Nat) : Nat → Nat → Nat → Occupied → Occupied
  | 0, _, _, occupied => occupied
  | n + 1, cur, remaining, occupied =>
    if remaining ≤ areaSize then
      insert cur occupied
    else
      markOccupiedRange areaSize n ((cur + areaSize) % 2 ^ 64) (remaining - areaSize)
        (insert cur occupied)

/-- `mark_occupied_range`, whose arguments have 64 bits. A range of size 0 has no rounds. -/
def markRange (areaSize : Nat) (occupied : Occupied) (r : Range) : Occupied :=
  markOccupiedRange areaSize (r.size % 2 ^ 64) (r.start % 2 ^ 64) (r.size % 2 ^ 64) occupied

/-- A walk along a chain of areas, which goes on for at most `n` rounds. It stops at a block that is
already known. -/
def walkChain (areaSize : Nat) (m : Areas) : Nat → Nat → Occupied → Option Occupied
  | 0, _, _ => none
  | n + 1, head, occupied =>
    if head = 0 ∨ head ∈ occupied then
      some occupied
    else
      walkChain areaSize m n (m.next head) (markRange areaSize (insert head occupied) (m.range head))

/-- As many rounds as there are offsets, and the one that stops. -/
def WALK_ROUNDS : Nat := 2 ^ 64 + 1

def walkDb (areaSize : Nat) (f : FileImage) (occupied : Occupied) (db : Nat) : Option Occupied :=
  if db = 0 then
    some occupied
  else do
    let occupied ← walkChain areaSize f.areas WALK_ROUNDS (f.areaListHeads db).1 occupied
    walkChain areaSize f.areas WALK_ROUNDS (f.areaListHeads db).2 occupied

/-- Phase 1: what is owned by the databases or by something else. -/
def collectOccupied (areaSize : Nat) (f : FileImage) (dbs : List Nat) (extra : List Range) :
    Option Occupied := do
  let occupied ← dbs.foldlM (walkDb areaSize f) ∅
  some (extra.foldl (markRange areaSize) occupied)

/-- The state of the scan: the two lists by their ends, and the run of free blocks. -/
structure AreaScan where
  areas : Areas
  singleHead : Nat
  singleTail : Nat
  multiHead : Nat
  multiTail : Nat
  runStart : Nat
  runBlocks : Nat

/-- The area is put behind the others: the heads, the new head and the new tail. -/
def linkArea (m : Areas) (head tail pos size : Nat) : Areas × Nat × Nat :=
  let m := m.init pos size 0
  if head = 0 then (m, pos, pos) else (m.setNext tail pos, head, pos)

namespace AreaScan

def init (m : Areas) : AreaScan := ⟨m, 0, 0, 0, 0, 0, 0⟩

def flushRun (areaSize : Nat) (s : AreaScan) : AreaScan :=
  if s.runBlocks = 1 then
    let r := linkArea s.areas s.singleHead s.singleTail s.runStart areaSize
    { s with areas := r.1, singleHead := r.2.1, singleTail := r.2.2, runBlocks := 0 }
  else if 1 < s.runBlocks then
    let r := linkArea s.areas s.multiHead s.multiTail s.runStart (s.runBlocks * areaSize)
    { s with areas := r.1, multiHead := r.2.1, multiTail := r.2.2, runBlocks := 0 }
  else
    s

/-- A round of the loop over the blocks of the file. -/
def block (areaSize : Nat) (occupied : Occupied) (s : AreaScan) (pos : Nat) : AreaScan :=
  if pos ∈ occupied then
    s.flushRun areaSize
  else
    { s with
      runStart := if s.runBlocks = 0 then pos else s.runStart, runBlocks := s.runBlocks + 1 }

end AreaScan

/-- The blocks from the first area to the end of the file. -/
def blockPositions (areaSize firstAreaPos fileSize : Nat) : List Nat :=
  (List.range ((fileSize - firstAreaPos) / areaSize)).map (firstAreaPos + · * areaSize)

/-- The pool and the heads of the areas in the file. -/
structure Recovered where
  areas : Areas
  singleAreas : AreaList
  multiAreas : AreaList

/-- Phase 2: the runs of free blocks become the areas of the pool. -/
def rebuildPool (areaSize firstAreaPos fileSize : Nat) (m : Areas) (occupied : Occupied) :
    Recovered :=
  let s := (blockPositions areaSize firstAreaPos fileSize).foldl (AreaScan.block areaSize occupied)
    (AreaScan.init m)
  let s := s.flushRun areaSize
  { areas := s.areas,
    singleAreas := if s.singleHead = 0 then AreaList.init
      else AreaList.init.atomicSwitch s.singleHead s.singleTail,
    multiAreas := if s.multiHead = 0 then AreaList.init
      else AreaList.init.atomicSwitch s.multiHead s.multiTail }

def recoverAreas (areaSize firstAreaPos fileSize : Nat) (f : FileImage) (dbs : List Nat)
    (extra : List Range) : Option Recovered := do
  let occupied ← collectOccupied areaSize f dbs extra
  some (rebuildPool areaSize firstAreaPos fileSize f.areas occupied)

/-- A block of the range begins here. -/
def BlockOf (areaSize : Nat) (r : Range) (b : Nat) : Prop :=
  ∃ i, i * areaSize < r.size ∧ b = (r.start + i * areaSize) % 2 ^ 64

/-- A block of the area begins here, or the area itself if its size is 0. -/
def AreaBlock (areaSize : Nat) (m : Areas) (a b : Nat) : Prop :=
  b = a ∨ BlockOf areaSize (m.range a) b

/-- The areas of the chain that begins here. -/
inductive Reaches (m : Areas) : Nat → Nat → Prop where
  | head {a : Nat} (ha : a ≠ 0) : Reaches m a a
  | next {a b : Nat} (ha : a ≠ 0) (h : Reaches m (m.next a) b) : Reaches m a b

namespace FileImage

/-- The area is in a list of one of the databases. -/
def Listed (f : FileImage) (dbs : List Nat) (a : Nat) : Prop :=
  ∃ db ∈ dbs, db ≠ 0 ∧
    (Reaches f.areas (f.areaListHeads db).1 a ∨ Reaches f.areas (f.areaListHeads db).2 a)

/-- The block is owned by a database or by something else. -/
def Owns (areaSize : Nat) (f : FileImage) (dbs : List Nat) (extra : List Range) (b : Nat) : Prop :=
  (∃ a, f.Listed dbs a ∧ AreaBlock areaSize f.areas a b) ∨ ∃ r ∈ extra, BlockOf areaSize r b

/-- Chains meet at the beginning of an area, never in the middle of one. -/
def Joined (areaSize : Nat) (f : FileImage) (dbs : List Nat) : Prop :=
  ∀ a b, f.Listed dbs a → f.Listed dbs b → AreaBlock areaSize f.areas a b → b = a

end FileImage

end Leaves
