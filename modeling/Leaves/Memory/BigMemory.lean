import Mathlib.Data.List.Lex
import Mathlib.Data.Prod.Lex
import Mathlib.Logic.Function.Basic
import Leaves.Lib.OrdMap
import Leaves.Memory.MemManager

/-!
The memory of the big values, `memory/_bigmemory.hpp`: free chunks are kept in a trie, the rest of
the chunk that was cut last is kept apart. The trie is the ordered map of its keys.
-/

namespace Leaves

open OrdMap

/-- The header of a chunk, and the key of a free one. -/
structure FreeKey where
  size : Nat
  /-- the offset of the chunk, with the flag of a successor in the lowest bit -/
  offset : Nat
  deriving DecidableEq, Repr

namespace FreeKey

/-- The bytes of a number, the lowest one first. -/
def bytes : Nat → Nat → List Nat
  | 0, _ => []
  | n + 1, x => x % 256 :: bytes n (x / 256)

/-- The trie compares strings: the size is stored big endian, the offset little endian. -/
def order (k : FreeKey) : Nat ×ₗ List Nat ×ₗ Nat :=
  toLex (k.size, toLex (bytes 8 k.offset, k.offset))

theorem order_injective : Function.Injective order := by
  intro k k' h
  simp only [order, EmbeddingLike.apply_eq_iff_eq, Prod.mk.injEq] at h
  cases k
  cases k'
  simp only [mk.injEq]
  exact ⟨h.1, h.2.2⟩

instance : LinearOrder FreeKey := LinearOrder.lift' order order_injective

/-- The offset without the flag. -/
def position (k : FreeKey) : Nat := k.offset / 2 * 2

def hasSuccessor (k : FreeKey) : Bool := k.offset % 2 = 1

def pack (size position : Nat) (successor : Bool) : FreeKey :=
  ⟨size, position / 2 * 2 + successor.toNat⟩

end FreeKey

/-- `sizeof(FreeKey)` -/
def FREE_KEY_SIZE : Nat := 16

structure BigValue where
  chunkOffset : Nat
  valueSize : Nat
  deriving DecidableEq, Repr

/-- A multi area. -/
structure Area where
  offset : Nat
  size : Nat
  deriving DecidableEq, Repr

namespace Area

def contentOffset (a : Area) : Nat := a.offset + AREA_HEADER_SIZE

def stop (a : Area) : Nat := a.offset + a.size

end Area

/-- `bigmem` of a transaction. -/
structure Bigmem where
  root : List (FreeKey × Nat)
  hotOffset : Nat
  hotSize : Nat
  hotSuccessor : Bool
  deriving DecidableEq, Repr

namespace Bigmem

/-- `reset` -/
def reset (b : Bigmem) : Bigmem := { b with hotOffset := 0, hotSize := 0, hotSuccessor := false }

end Bigmem

/-- What a rollback goes back to. -/
structure BigSnapshot where
  bigmem : Bigmem
  areas : List Area
  values : List BigValue
  deriving DecidableEq, Repr

structure BigMemory where
  /-- the 16 bytes at an offset, read as a header -/
  memory : Nat → FreeKey
  bigmem : Bigmem
  /-- the list that starts at `area_list_head_multi` -/
  areas : List Area
  /-- the values the leaves refer to -/
  values : List BigValue
  /-- the id of the last committed transaction -/
  txnId : Nat
  /-- `_start_txn_id` -/
  startTxnId : Nat
  /-- the committed state while a transaction is active -/
  saved : Option BigSnapshot
  /-- the stack of the free cursor is in nodes of the active transaction -/
  stackChanged : Bool

namespace BigMemory

def create : BigMemory :=
  ⟨fun _ => ⟨0, 0⟩, ⟨[], 0, 0, false⟩, [], [], 1, 1, none, false⟩

def setHeader (s : BigMemory) (k : FreeKey) : BigMemory :=
  { s with memory := Function.update s.memory k.position k }

/-- `_add_chunk` -/
def addChunk (s : BigMemory) (offset size : Nat) (successor freed : Bool) : BigMemory :=
  let key := FreeKey.pack size offset successor
  { s with
    bigmem.root := insert s.bigmem.root key (if freed then s.txnId + 1 else 0)
    stackChanged := true }

/-- Ten entries are looked at for one that may be recycled. -/
def findChunk (root : List (FreeKey × Nat)) (startTxnId : Nat) : Nat → Option FreeKey → Option FreeKey
  | 0, _ => none
  | _, none => none
  | n + 1, some key =>
    match lookup root key with
    | none => none
    | some txnId => if txnId < startTxnId then some key else findChunk root startTxnId n (next root key)

/-- The storage does not hand out an area that is in use. -/
def Fresh (areas : List Area) (a : Area) : Prop :=
  a.offset % AREA_SIZE = 0 ∧ ∀ b ∈ areas, a.stop ≤ b.offset ∨ b.stop ≤ a.offset

instance (areas : List Area) (a : Area) : Decidable (Fresh areas a) :=
  inferInstanceAs (Decidable (_ ∧ _))

/-- A chunk from the trie, or a new area at `area`. -/
def takeChunk (s : BigMemory) (paddedSize : Nat) (area : Nat) : Option (BigMemory × FreeKey) :=
  match findChunk s.bigmem.root s.startTxnId 10 (next s.bigmem.root ⟨paddedSize, 0⟩) with
  | some found =>
    some ({ s with bigmem.root := erase s.bigmem.root found, stackChanged := true }, found)
  | none =>
    let a : Area := ⟨area, padding (paddedSize + AREA_HEADER_SIZE) AREA_SIZE⟩
    if Fresh s.areas a then
      some ({ s with areas := a :: s.areas, stackChanged := true },
        FreeKey.pack (a.stop - a.contentOffset) a.contentOffset false)
    else none

/-- What is not needed of a chunk is the next hot chunk. -/
def cutChunk (s : BigMemory) (paddedSize : Nat) (found : FreeKey) : BigMemory × FreeKey :=
  if MAX_PAGE_SIZE ≤ found.size - paddedSize then
    let s :=
      if 0 < s.bigmem.hotSize then
        s.addChunk s.bigmem.hotOffset s.bigmem.hotSize s.bigmem.hotSuccessor false
      else s
    ({ s with
        bigmem.hotOffset := found.position + paddedSize
        bigmem.hotSize := found.size - paddedSize
        bigmem.hotSuccessor := found.hasSuccessor },
      FreeKey.pack paddedSize found.position true)
  else (s, found)

/-- The front of the hot chunk. -/
def takeHot (s : BigMemory) (paddedSize : Nat) : BigMemory × FreeKey :=
  if s.bigmem.hotSize - paddedSize = 0 then
    ({ s with bigmem := s.bigmem.reset },
      FreeKey.pack paddedSize s.bigmem.hotOffset s.bigmem.hotSuccessor)
  else
    ({ s with
        bigmem.hotOffset := s.bigmem.hotOffset + paddedSize
        bigmem.hotSize := s.bigmem.hotSize - paddedSize },
      FreeKey.pack paddedSize s.bigmem.hotOffset true)

/-- The header of the chunk is written and the value refers to it. -/
def place (s : BigMemory) (key : FreeKey) (size : Nat) : BigMemory :=
  { s.setHeader key with
    values := ⟨key.position + FREE_KEY_SIZE, size % 2 ^ 32⟩ :: s.values }

/-- `alloc` -/
def alloc (s : BigMemory) (size : Nat) (area : Nat) : Option BigMemory :=
  let paddedSize := padding (FREE_KEY_SIZE + size) MAX_PAGE_SIZE
  if paddedSize ≤ s.bigmem.hotSize then
    let (s, key) := s.takeHot paddedSize
    some (s.place key size)
  else do
    let (s, found) ← s.takeChunk paddedSize area
    let (s, key) := s.cutChunk paddedSize found
    some (s.place key size)

/-- The header of the chunk of a value. -/
def header (s : BigMemory) (v : BigValue) : FreeKey := s.memory (v.chunkOffset - FREE_KEY_SIZE)

/-- `free` -/
def free (s : BigMemory) (v : BigValue) : BigMemory :=
  let key := s.header v
  { s with values := s.values.erase v }.addChunk key.position key.size key.hasSuccessor true

/-- The bytes of a value are written, whatever they look like as a header. -/
def write (s : BigMemory) (v : BigValue) (contents : Nat → FreeKey) : BigMemory :=
  { s with
    memory := fun x =>
      if v.chunkOffset - FREE_KEY_SIZE < x ∧ x < v.chunkOffset + v.valueSize then contents x
      else s.memory x }

/-- What has been merged so far of a chunk and its successors. -/
structure Merging where
  root : List (FreeKey × Nat)
  totalSize : Nat
  hasSuccessor : Bool
  foundMergeable : Bool

section Defrag

variable (startTxnId : Nat)

/-- The inner loop of `defrag`: successors that are free are taken out of the trie. -/
def mergeSuccessors (memory : Nat → FreeKey) (position : Nat) : Nat → Merging → Merging
  | 0, m => m
  | fuel + 1, m =>
    if m.hasSuccessor then
      let nextKey := memory (position + m.totalSize)
      match lookup m.root nextKey with
      | none => m
      | some txnId =>
        if txnId < startTxnId then
          mergeSuccessors memory position fuel
            ⟨erase m.root nextKey, m.totalSize + nextKey.size, nextKey.hasSuccessor, true⟩
        else m
    else m

/-- The outer loop of `defrag`, nothing if it runs out of fuel or `remove` has no valid position. -/
def defragLoop : Nat → (Nat → FreeKey) → List (FreeKey × Nat) → Option FreeKey →
    Option ((Nat → FreeKey) × List (FreeKey × Nat))
  | _, memory, root, none => some (memory, root)
  | 0, _, _, some _ => none
  | fuel + 1, memory, root, some key =>
    match lookup root key with
    | none => none
    | some txnId =>
      if txnId < startTxnId then
        let m := mergeSuccessors startTxnId memory key.position root.length
          ⟨root, key.size, key.hasSuccessor, false⟩
        if m.foundMergeable then
          if (lookup m.root key).isSome then
            let merged := FreeKey.pack m.totalSize key.position m.hasSuccessor
            let root := insert (erase m.root key) merged txnId
            defragLoop fuel (Function.update memory key.position merged) root (first root)
          else none
        else defragLoop fuel memory root (next root key)
      else defragLoop fuel memory root (next root key)

end Defrag

/-- More rounds are not needed. -/
def defragRounds (root : List (FreeKey × Nat)) : Nat := root.length * root.length + root.length

/-- The hot chunk becomes a free one. -/
def coolDown (s : BigMemory) : BigMemory :=
  if 0 < s.bigmem.hotSize then
    let s := s.addChunk s.bigmem.hotOffset s.bigmem.hotSize s.bigmem.hotSuccessor false
    { s with bigmem := s.bigmem.reset }
  else s

/-- `defrag` -/
def defrag (s : BigMemory) : Option BigMemory := do
  let s := s.coolDown
  let (memory, root) ← defragLoop s.startTxnId (defragRounds s.bigmem.root) s.memory s.bigmem.root
    (first s.bigmem.root)
  some { s with memory, bigmem.root := root }

/-- `_DB::start_transaction`, the oldest transaction that is in use comes from outside. -/
def start (s : BigMemory) (oldest : Nat) : Option BigMemory :=
  if s.saved.isNone ∧ oldest ≤ s.txnId then
    some { s with
      saved := some ⟨s.bigmem, s.areas, s.values⟩, startTxnId := oldest, stackChanged := false }
  else none

def commit (s : BigMemory) : BigMemory := { s with saved := none, txnId := s.txnId + 1 }

/-- `_DB::rollback`: the headers in the chunks stay as they are. -/
def rollback (s : BigMemory) (saved : BigSnapshot) : BigMemory :=
  { s with
    bigmem := saved.bigmem, areas := saved.areas, values := saved.values, saved := none }

end BigMemory

inductive BigEvent where
  | start (oldest : Nat)
  | alloc (size : Nat) (area : Nat)
  | write (v : BigValue) (contents : Nat → FreeKey)
  | free (v : BigValue)
  | commit
  | rollback
  /-- `_DB::defrag` with a transaction of its own -/
  | defrag (oldest : Nat)

namespace BigMemory

def step (s : BigMemory) : BigEvent → Option BigMemory
  | .start oldest => s.start oldest
  | .alloc size area => if s.saved.isSome then s.alloc size area else none
  | .write v contents => if s.saved.isSome ∧ v ∈ s.values then some (s.write v contents) else none
  | .free v => if s.saved.isSome ∧ v ∈ s.values then some (s.free v) else none
  | .commit => if s.saved.isSome then some s.commit else none
  | .rollback => s.saved.map s.rollback
  | .defrag oldest => do
    let s' ← s.start oldest
    -- `defrag` returns early with a rollback
    if s'.bigmem.root.isEmpty then some { s' with saved := none }
    else
      let s' ← s'.defrag
      some s'.commit

def run (s : BigMemory) (events : List BigEvent) : Option BigMemory := events.foldlM step s

end BigMemory
end Leaves
