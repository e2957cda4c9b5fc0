import Leaves.Core.Bytes
import Leaves.Core.Node
import Leaves.Lib.Ranges
import Mathlib.Data.List.AList
import Mathlib.Logic.Function.Basic

/-!
`_CacheStore` of `storage/_cachestore.hpp`: the area slices that are cached, the maps of the dirty
ones, and the writes that are on their way to the file. A pointer in a map is the number of its
slice, the header of the file and the memory of the slices are left out.
-/

namespace Leaves

namespace Bytes

/-- `AreaSlice::_offset` -/
def offset (b : Bytes) : Nat := ofLittle (b.read 0 8)

/-- `AreaSlice::_size` -/
def size (b : Bytes) : Nat := ofLittle (b.read 8 4)

/-- `_ref.store` -/
def setRef (b : Bytes) (ref : Nat) : Bytes := b.write 12 (toLittle 4 ref)

/-- `Area::init` -/
def init (b : Bytes) (offset size next : Nat) : Bytes :=
  ((b.write 0 (toLittle 8 offset)).write 8 (toLittle 4 size)).write 16 (toLittle 8 next)

/-- The first bytes of `b` are put where they belong. -/
def store (file : Bytes) (offset size : Nat) (b : Bytes) : Bytes := fun a =>
  if offset ≤ a ∧ a < offset + size then b (a - offset) else file a

end Bytes

/-- What a store is built for. `tracked` tells whether `has_pending_writes` and `wait_for_writes`
know of the writes, otherwise a call that writes is done when it returns. -/
structure StoreTraits where
  areaSize : Nat
  headerSize : Nat
  tracked : Bool
  hasWorkers : Bool
  head_le : 24 ≤ areaSize
  size_lt : areaSize < 2 ^ 32
  header_pos : 0 < headerSize
  header_le : headerSize ≤ areaSize

/-- A write of a slice. The bytes are those that the slice has when it is sent. -/
structure SliceWrite where
  slice : Nat
  sent : Option Bytes

/-- The task that `flush` submits, `_flush_pending` is set as long as it is not idle. -/
inductive FlushTask where
  | idle
  | submitted
  | running
  deriving DecidableEq, Repr

/-- `ankerl::unordered_dense::map<uint64_t, page_ptr>` -/
abbrev DirtyMap := AList fun _ : Nat => Nat

structure PagePtr where
  iref : Nat
  offset : Nat
  deriving DecidableEq, Repr

/-- The slices are numbered as they are allocated. `held` has the slices of the pointers that the
callers have, one for each pointer. -/
structure CacheStore where
  file : Bytes
  fileSize : Nat
  slice : Nat → Bytes
  slices : Nat
  held : List Nat
  cache : Nat → Option Nat
  dirtyPending : DirtyMap
  dirtyCommitted : DirtyMap
  dirtyInflight : DirtyMap
  headerDirty : Bool
  writes : List SliceWrite
  flushTask : FlushTask

namespace CacheStore

/-- A new file. -/
def create (t : StoreTraits) : CacheStore where
  file := fun _ => 0
  fileSize := Leaves.padding t.headerSize t.areaSize
  slice := fun _ _ => 0
  slices := 0
  held := []
  cache := fun _ => none
  dirtyPending := ∅
  dirtyCommitted := ∅
  dirtyInflight := ∅
  headerDirty := false
  writes := []
  flushTask := .idle

/-- `TwoQCache::put`, which leaves the value of a key that is there. -/
def put (s : CacheStore) (key slice : Nat) : CacheStore :=
  if (s.cache key).isSome then s else { s with cache := Function.update s.cache key (some slice) }

/-- A new slice with these bytes. -/
def newSlice (s : CacheStore) (b : Bytes) : CacheStore :=
  { s with slice := Function.update s.slice s.slices (b.setRef 0), slices := s.slices + 1 }

/-- The slice is one of those a pointer other than the cache's points to: its count is not 1. -/
def Pinned (s : CacheStore) (slice : Nat) : Prop :=
  slice ∈ s.held ∨ (∃ e ∈ s.dirtyPending.entries, e.2 = slice) ∨
    (∃ e ∈ s.dirtyCommitted.entries, e.2 = slice) ∨
    (∃ e ∈ s.dirtyInflight.entries, e.2 = slice) ∨ ∃ w ∈ s.writes, w.slice = slice

instance (s : CacheStore) (slice : Nat) : Decidable (s.Pinned slice) :=
  inferInstanceAs (Decidable (_ ∨ _))

/-- An entry is evicted if no other pointer points to its slice. -/
def evict (s : CacheStore) (key : Nat) : CacheStore :=
  match s.cache key with
  | some slice =>
    if s.Pinned slice then s else { s with cache := Function.update s.cache key none }
  | none => s

section Resolve

variable (t : StoreTraits)

/-- The loop that walks backwards, which takes an area away in each round. -/
def probe (s : CacheStore) (areaOffset : Nat) : Nat → Nat → Option Nat
  | 0, _ => none
  | n + 1, pos =>
    if pos < t.areaSize then
      none
    else
      match s.cache (pos - t.areaSize) with
      | some slice =>
        -- it belongs to a different, earlier area
        if (s.slice slice).offset + (s.slice slice).size ≤ areaOffset then none else some slice
      | none => probe s areaOffset n (pos - t.areaSize)

def cached (s : CacheStore) (areaOffset : Nat) : Option Nat :=
  match s.cache areaOffset with
  | some slice => some slice
  | none => probe t s areaOffset (areaOffset / t.areaSize) areaOffset

/-- The first of the dirty maps that has the area. -/
def dirty (s : CacheStore) (areaOffset : Nat) : Option Nat :=
  s.dirtyPending.lookup areaOffset <|> s.dirtyCommitted.lookup areaOffset <|>
    s.dirtyInflight.lookup areaOffset

/-- The bytes from the offset on, as many as the head that is found there says. -/
def load (s : CacheStore) (areaOffset : Nat) : Bytes :=
  let head : Bytes := fun i => s.file (areaOffset + i)
  fun i => if i < head.size then head i else 0

/-- A pointer to the byte is given to the caller. -/
def hold (s : CacheStore) (slice offset : Nat) : CacheStore × Option PagePtr :=
  ({ s with held := slice :: s.held }, some ⟨slice, offset % 2 ^ 32⟩)

def resolve (s : CacheStore) (offset : Nat) : CacheStore × Option PagePtr :=
  if offset = 0 then
    (s, none)
  else
    let areaOffset := offset - offset % t.areaSize
    match s.cached t areaOffset with
    | some slice => s.hold slice (offset - (s.slice slice).offset)
    | none =>
      match s.dirty areaOffset with
      | some slice => (s.put areaOffset slice).hold slice (offset - areaOffset)
      | none =>
        ((s.newSlice (s.load areaOffset)).put areaOffset s.slices).hold s.slices
          (offset - areaOffset)

end Resolve

/-- `emplace_new_area`: the bytes are those that the allocated memory has. -/
def emplaceNewArea (s : CacheStore) (size : Nat) (memory : Bytes) : CacheStore :=
  let start := s.fileSize
  let s := { s with fileSize := start + size, headerDirty := true }
  let slice := s.slices
  ((s.newSlice (memory.init start size 0)).put start slice |>.hold slice 0).1

/-- The caller changes the bytes of a slice it has a pointer to. -/
def poke (s : CacheStore) (slice pos : Nat) (data : List UInt8) : CacheStore :=
  { s with slice := Function.update s.slice slice ((s.slice slice).write pos data) }

def makeDirty (s : CacheStore) (slice : Nat) : CacheStore :=
  { s with dirtyPending := s.dirtyPending.insert (s.slice slice).offset slice }

section Flush

variable (t : StoreTraits)

/-- The bytes of the slice are taken, if they have not been before. -/
def send (s : CacheStore) (w : SliceWrite) : SliceWrite :=
  match w.sent with
  | some _ => w
  | none => { w with sent := some (s.slice w.slice) }

/-- The bytes that were sent come to the file. -/
def land (s : CacheStore) (w : SliceWrite) : CacheStore :=
  match w.sent with
  | some b => { s with file := s.file.store b.offset b.size b }
  | none => s

def landAll (s : CacheStore) (ws : List SliceWrite) : CacheStore :=
  ws.foldl (fun s w => s.land (s.send w)) s

def hasPendingWrites (s : CacheStore) : Bool := t.tracked && !s.writes.isEmpty

/-- Whether `write_dirty_blocks` leaves the block for later. -/
def defers (s : CacheStore) (key : Nat) : Bool :=
  s.hasPendingWrites t && (s.dirtyInflight.lookup key).isSome

/-- The blocks to write and the deferred ones. -/
def partitionCommitted (s : CacheStore) : DirtyMap × DirtyMap :=
  (⟨s.dirtyCommitted.entries.filter fun e => !s.defers t e.1,
      s.dirtyCommitted.nodupKeys.sublist List.filter_sublist⟩,
    ⟨s.dirtyCommitted.entries.filter fun e => s.defers t e.1,
      s.dirtyCommitted.nodupKeys.sublist List.filter_sublist⟩)

/-- `write_dirty_blocks` up to `write_batch`. -/
def collectBlocks (s : CacheStore) : List SliceWrite × CacheStore :=
  let r := s.partitionCommitted t
  let inflight := if s.hasPendingWrites t then s.dirtyInflight else ∅
  (r.1.entries.map fun e => ⟨e.2, none⟩,
    { s with
      dirtyCommitted := r.2, dirtyInflight := r.1 ∪ inflight,
      headerDirty := s.headerDirty && s.hasPendingWrites t && r.1.entries.isEmpty })

/-- `write_dirty_blocks` where the writes are left to the background. -/
def submitBlocks (s : CacheStore) : CacheStore :=
  let r := s.collectBlocks t
  { r.2 with writes := r.2.writes ++ r.1 }

/-- `write_dirty_blocks` in the thread of the caller. -/
def writeDirtyBlocks (s : CacheStore) : CacheStore :=
  if t.tracked then
    s.submitBlocks t
  else
    let r := s.collectBlocks t
    r.2.landAll r.1

def waitForWrites (s : CacheStore) : CacheStore :=
  if t.tracked then { s with writes := [] }.landAll s.writes else s

/-- `_dirty_committed.insert` of the pending blocks, which leaves the ones that are there. -/
def commitPending (s : CacheStore) : CacheStore :=
  { s with dirtyCommitted := s.dirtyCommitted ∪ s.dirtyPending, dirtyPending := ∅ }

def flush (s : CacheStore) (sync : Bool) : CacheStore :=
  let hasPending := !s.dirtyPending.entries.isEmpty
  let s := s.commitPending
  if sync then
    (s.writeDirtyBlocks t).waitForWrites t
  else if hasPending || s.headerDirty then
    if t.hasWorkers then
      if s.flushTask = .idle then { s with flushTask := .submitted } else s
    else
      s.writeDirtyBlocks t
  else
    s

end Flush

end CacheStore

/-- What happens to a store: the calls, and what goes on in the background. -/
inductive StoreOp where
  /-- the pool has no area that is big enough -/
  | allocSingleArea (memory : Bytes)
  /-- the pool has no area that is big enough -/
  | allocMultiArea (size : Nat) (memory : Bytes)
  | resolve (offset : Nat)
  | poke (slice pos : Nat) (data : List UInt8)
  | makeDirty (slice : Nat)
  /-- a pointer is gone -/
  | release (slice : Nat)
  | flush (sync : Bool)
  | evict (key : Nat)
  | beginTask
  | endTask
  | send (i : Nat)
  | land (i : Nat)

namespace CacheStore

variable (t : StoreTraits)

/-- A step of the background or of a caller without the pointer does nothing when it is not its
time. -/
def step (s : CacheStore) : StoreOp → CacheStore
  | .allocSingleArea memory => s.emplaceNewArea t.areaSize memory
  | .allocMultiArea size memory => s.emplaceNewArea (Leaves.padding size t.areaSize) memory
  | .resolve offset => (s.resolve t offset).1
  | .poke slice pos data => if slice ∈ s.held then s.poke slice pos data else s
  | .makeDirty slice => if slice ∈ s.held then s.makeDirty slice else s
  | .release slice => { s with held := s.held.erase slice }
  | .flush sync => s.flush t sync
  | .evict key => s.evict key
  | .beginTask =>
    if s.flushTask = .submitted then { s.submitBlocks t with flushTask := .running } else s
  | .endTask =>
    -- the task has come to its end when its writes have
    if s.flushTask = .running ∧ (t.tracked = true ∨ s.writes = []) then
      { s with flushTask := .idle }
    else
      s
  | .send i =>
    match s.writes[i]? with
    | some w => { s with writes := s.writes.set i (s.send w) }
    | none => s
  | .land i =>
    match s.writes[i]? with
    | some w =>
      if w.sent.isSome then { s.land w with writes := s.writes.eraseIdx i } else s
    | none => s

def run (s : CacheStore) (ops : List StoreOp) : CacheStore := ops.foldl (step t) s

end CacheStore

end Leaves
