import Leaves.Storage.CacheStore
import Mathlib.Order.Lattice

/-!
The latest bytes of every area, kept beside the store, and what the cache, the dirty maps, the
writes and the file have to do with them.
-/

namespace Leaves

namespace Bytes

variable {b b' : Bytes}

theorem offset_congr (h : ∀ i, i < 8 → b i = b' i) : b.offset = b'.offset := by
  unfold offset
  rw [read_congr]
  intro i hi
  rw [Nat.zero_add]
  exact h i hi

theorem size_congr (h : ∀ i, 8 ≤ i → i < 12 → b i = b' i) : b.size = b'.size := by
  unfold size
  rw [read_congr]
  intro i hi
  apply h <;> omega

theorem setRef_eq {i ref : Nat} (h : ¬(12 ≤ i ∧ i < 16)) : b.setRef ref i = b i := by
  unfold setRef write
  rw [length_toLittle, if_neg]
  omega

theorem init_offset (b : Bytes) {offset size next : Nat} (h : offset < 2 ^ 64) :
    (b.init offset size next).offset = offset := by
  have hwrite : (b.init offset size next).offset = (b.write 0 (toLittle 8 offset)).offset := by
    apply offset_congr
    intro i hi
    unfold init
    rw [write_of_lt (by omega), write_of_lt hi]
  have hread := read_write b 0 (toLittle 8 offset)
  rw [length_toLittle] at hread
  rw [hwrite, Bytes.offset, hread, ofLittle_toLittle]
  exact Nat.mod_eq_of_lt h

theorem init_size (b : Bytes) {offset size next : Nat} (h : size < 2 ^ 32) :
    (b.init offset size next).size = size := by
  have hwrite : (b.init offset size next).size =
      ((b.write 0 (toLittle 8 offset)).write 8 (toLittle 4 size)).size := by
    apply size_congr
    intro i _ hi
    unfold init
    rw [write_of_lt (by omega)]
  have hread := read_write (b.write 0 (toLittle 8 offset)) 8 (toLittle 4 size)
  rw [length_toLittle] at hread
  rw [hwrite, Bytes.size, hread, ofLittle_toLittle]
  exact Nat.mod_eq_of_lt h

theorem store_of_has {file : Bytes} {r : Range} {a : Nat} (h : r.Has a) :
    file.store r.start r.size b a = b (a - r.start) := if_pos h

theorem store_of_not {file : Bytes} {r : Range} {a : Nat} (h : ¬r.Has a) :
    file.store r.start r.size b a = file a := if_neg h

/-- The bytes are those of the range, but for the reference count. -/
def Shows (b : Bytes) (r : Range) (mem : Bytes) : Prop :=
  ∀ i, i < r.size → ¬(12 ≤ i ∧ i < 16) → b i = mem (r.start + i)

/-- The bytes from an offset on. -/
def drop (b : Bytes) (offset : Nat) : Bytes := fun i => b (offset + i)

/-- The head says where the area is. -/
def Heads (b : Bytes) (r : Range) : Prop := b.offset = r.start ∧ b.size = r.size

theorem Shows.heads {r : Range} {mem : Bytes} (h : b.Shows r mem) (hsize : 24 ≤ r.size)
    (hheads : (mem.drop r.start).Heads r) : b.Heads r := by
  constructor
  . rw [← hheads.1]
    apply offset_congr
    intro i hi
    apply h i <;> omega
  . rw [← hheads.2]
    apply size_congr
    intro i _ hi
    apply h i <;> omega

theorem Heads.congr {r : Range} (h : b.Heads r) (hb : ∀ i, i < 12 → b' i = b i) : b'.Heads r := by
  constructor
  . rw [← h.1]
    apply offset_congr
    intro i hi
    apply hb
    omega
  . rw [← h.2]
    apply size_congr
    intro i _ hi
    exact hb i hi

theorem Shows.congr {r : Range} {mem mem' : Bytes} (h : b.Shows r mem)
    (hmem : ∀ a, r.Has a → mem' a = mem a) : b.Shows r mem' := by
  intro i hi href
  rw [h i hi href, hmem]
  exact ⟨Nat.le_add_right _ _, Nat.add_lt_add_left hi _⟩

theorem Shows.setRef {r : Range} {mem : Bytes} (h : b.Shows r mem) (ref : Nat) :
    (b.setRef ref).Shows r mem := by
  intro i hi href
  rw [setRef_eq href]
  exact h i hi href

end Bytes

/-- The areas that were allocated, those whose bytes were all made dirty after they were written,
and the latest bytes. -/
structure Ledger where
  areas : List Range
  live : Nat → Bool
  bytes : Bytes

namespace Ledger

def empty : Ledger := ⟨[], fun _ => false, fun _ => 0⟩

def allocate (l : Ledger) (start size : Nat) (memory : Bytes) : Ledger :=
  { l with
    areas := ⟨start, size⟩ :: l.areas,
    bytes := l.bytes.store start size (memory.init start size 0) }

/-- What a step of the store does to the bytes. -/
def note (t : StoreTraits) (s : CacheStore) (l : Ledger) : StoreOp → Ledger
  | .allocSingleArea memory => l.allocate s.fileSize t.areaSize memory
  | .allocMultiArea size memory => l.allocate s.fileSize (padding size t.areaSize) memory
  | .poke slice pos data =>
    if slice ∈ s.held then
      let start := (s.slice slice).offset
      { l with bytes := l.bytes.write (start + pos) data,
               live := Function.update l.live start false }
    else
      l
  | .makeDirty slice =>
    if slice ∈ s.held then
      { l with live := Function.update l.live (s.slice slice).offset true }
    else
      l
  | _ => l

end Ledger

namespace CacheStore

/-- A run with the ledger beside it. -/
def follow (t : StoreTraits) (s : CacheStore) (l : Ledger) : List StoreOp → CacheStore × Ledger
  | [] => (s, l)
  | op :: ops => follow t (s.step t op) (l.note t s op) ops

/-- The offset is one where `resolve` finds the area: its slice is cached, or the offset is before
the end of the first block. -/
def Reachable (t : StoreTraits) (s : CacheStore) (l : Ledger) (r : Range) (offset : Nat) : Prop :=
  r.Has offset ∧
    ((s.cache r.start).isSome = true ∨ l.live r.start = true ∧ offset < r.start + t.areaSize)

instance (t : StoreTraits) (s : CacheStore) (l : Ledger) (r : Range) (offset : Nat) :
    Decidable (Reachable t s l r offset) := inferInstanceAs (Decidable (_ ∧ _))

/-- The steps the store is coherent for. The file is not longer than its offsets can say, a head
keeps its place and its size, and a caller that writes does not meet writes nobody waits for. -/
def Allowed (t : StoreTraits) (s : CacheStore) (l : Ledger) : StoreOp → Prop
  | .allocSingleArea _ => s.fileSize + t.areaSize < 2 ^ 64
  | .allocMultiArea size _ =>
    0 < size ∧ padding size t.areaSize < 2 ^ 32 ∧ s.fileSize + padding size t.areaSize < 2 ^ 64
  | .resolve offset => offset = 0 ∨ ∃ r ∈ l.areas, Reachable t s l r offset
  | .poke slice pos data =>
    slice ∈ s.held → pos + data.length ≤ (s.slice slice).size ∧
      ((s.slice slice).write pos data).offset = (s.slice slice).offset ∧
      ((s.slice slice).write pos data).size = (s.slice slice).size
  | .flush sync => sync = true ∨ t.hasWorkers = false → t.tracked = true ∨ s.writes = []
  | _ => True

instance (t : StoreTraits) (s : CacheStore) (l : Ledger) (op : StoreOp) :
    Decidable (Allowed t s l op) :=
  match op with
  | .allocSingleArea _ => inferInstanceAs (Decidable (_ < _))
  | .allocMultiArea _ _ => inferInstanceAs (Decidable (_ ∧ _))
  | .resolve _ => inferInstanceAs (Decidable (_ ∨ ∃ r ∈ l.areas, _))
  | .poke _ _ _ => inferInstanceAs (Decidable (_ → _))
  | .flush _ => inferInstanceAs (Decidable (_ → _ ∨ s.writes = []))
  | .makeDirty _ | .release _ | .evict _ | .beginTask | .endTask | .send _ | .land _ =>
    inferInstanceAs (Decidable True)

def AllowedAll (t : StoreTraits) (s : CacheStore) (l : Ledger) : List StoreOp → Prop
  | [] => True
  | op :: ops => Allowed t s l op ∧ AllowedAll t (s.step t op) (l.note t s op) ops

instance decidableAllowedAll (t : StoreTraits) (s : CacheStore) (l : Ledger) (ops : List StoreOp) :
    Decidable (AllowedAll t s l ops) :=
  match ops with
  | [] => inferInstanceAs (Decidable True)
  | op :: ops =>
    have := decidableAllowedAll t (s.step t op) (l.note t s op) ops
    inferInstanceAs (Decidable (_ ∧ _))

/-- The areas of the file: they are whole blocks, apart from each other, and have heads. -/
structure Laid (t : StoreTraits) (s : CacheStore) (l : Ledger) : Prop where
  fileDvd : t.areaSize ∣ s.fileSize
  filePos : 0 < s.fileSize
  fileLt : s.fileSize < 2 ^ 64
  startDvd : ∀ r ∈ l.areas, t.areaSize ∣ r.start
  sizeDvd : ∀ r ∈ l.areas, t.areaSize ∣ r.size
  startPos : ∀ r ∈ l.areas, 0 < r.start
  sizePos : ∀ r ∈ l.areas, 0 < r.size
  sizeLt : ∀ r ∈ l.areas, r.size < 2 ^ 32
  inside : ∀ r ∈ l.areas, r.start + r.size ≤ s.fileSize
  apart : l.areas.Pairwise Range.Apart
  heads : ∀ r ∈ l.areas, (l.bytes.drop r.start).Heads r
  live : ∀ k, l.live k = true → ∃ r ∈ l.areas, r.start = k

/-- The area is to be written by a later flush. -/
def Waits (s : CacheStore) (key : Nat) : Prop := key ∈ s.dirtyPending ∨ key ∈ s.dirtyCommitted

/-- What the cache has of the areas, and who relies on it. A slice that someone points to is cached.
-/
structure Cached (s : CacheStore) (l : Ledger) : Prop where
  slices : ∀ k i, s.cache k = some i → i < s.slices
  shows : ∀ k i, s.cache k = some i → ∃ r ∈ l.areas, r.start = k ∧ (s.slice i).Shows r l.bytes
  held : ∀ i ∈ s.held, ∃ k, s.cache k = some i
  pending : ∀ k i, s.dirtyPending.lookup k = some i → s.cache k = some i
  committed : ∀ k i, s.dirtyCommitted.lookup k = some i → s.cache k = some i
  inflight : ∀ k i, s.dirtyInflight.lookup k = some i → s.cache k = some i

/-- A write that was sent, of an area. -/
def Sent (s : CacheStore) (l : Ledger) (r : Range) (b : Bytes) : Prop :=
  b.Heads r ∧ (s.Waits r.start ∨ l.live r.start = false ∨ b.Shows r l.bytes)

/-- The writes and the file. The bytes of an area that is in none of the maps are on their way to
the file, or there. -/
structure Stored (s : CacheStore) (l : Ledger) : Prop where
  writes : ∀ w ∈ s.writes, ∃ r ∈ l.areas, s.cache r.start = some w.slice ∧
    r.start ∈ s.dirtyInflight ∧ ∀ b, w.sent = some b → s.Sent l r b
  file : ∀ r ∈ l.areas, l.live r.start = true → s.Waits r.start ∨
    (s.file.drop r.start).Shows r l.bytes ∨ ∃ w ∈ s.writes, s.cache r.start = some w.slice

structure Inv (t : StoreTraits) (s : CacheStore) (l : Ledger) : Prop where
  laid : Laid t s l
  cached : s.Cached l
  stored : s.Stored l

/-- Only the task of `flush` leaves writes behind that nobody knows of. -/
def Serial (t : StoreTraits) (s : CacheStore) : Prop :=
  t.tracked = false → s.writes ≠ [] → s.flushTask = .running

end CacheStore

end Leaves
