import Leaves.Memory.IntrusiveList

/-!
The cache with two queues of `memory/_twoquecache.hpp`. A value is a pointer to an area slice, named
by a number that no other slice ever has, 0 for none.
-/

namespace Leaves

/-- The sizes and the reference counts of the area slices. -/
structure Slices where
  size : Nat → Nat
  ref : Nat → Nat

namespace Slices

/-- A pointer to the slice is copied. -/
def incRef (s : Slices) (value : Nat) : Slices :=
  if value = 0 then s else { s with ref := Function.update s.ref value (s.ref value + 1) }

/-- A pointer to the slice is destructed. -/
def decRef (s : Slices) (value : Nat) : Slices :=
  if value = 0 then s else { s with ref := Function.update s.ref value (s.ref value - 1) }

def getItemSize (s : Slices) (value : Nat) : Nat := if value = 0 then 0 else s.size value

def canEvict (s : Slices) (value : Nat) : Bool := value ≠ 0 ∧ s.ref value = 1

end Slices

structure TwoQCache (Key : Type) where
  capacity : Nat
  size : Nat
  a1inCurrentSize : Nat
  a1inSizeLimit : Nat
  a1outSizeLimit : Nat
  a1inList : IntrusiveList
  a1inMap : Key → Option Nat
  a1outList : IntrusiveList
  a1outMap : Key → Option Nat
  amList : IntrusiveList
  amMap : Key → Option Nat
  entries : Entries Key
  ghosts : Entries Key
  entryPool : ObjectPool
  ghostPool : ObjectPool
  slices : Slices

variable {Key : Type}

namespace TwoQCache

/-- The constructor. The limits are the capacity times the ratios, the memory for the entries and
the ghosts holds anything. -/
def init (capacity a1inSizeLimit a1outItems : Nat) (entries ghosts : Entries Key)
    (slices : Slices) : TwoQCache Key :=
  { capacity, size := 0, a1inCurrentSize := 0, a1inSizeLimit, a1outSizeLimit := max a1outItems 1,
    a1inList := IntrusiveList.empty, a1inMap := fun _ => none,
    a1outList := IntrusiveList.empty, a1outMap := fun _ => none,
    amList := IntrusiveList.empty, amMap := fun _ => none,
    entries, ghosts, entryPool := ObjectPool.empty, ghostPool := ObjectPool.empty, slices }

def itemSize (c : TwoQCache Key) (entry : Nat) : Nat := c.slices.getItemSize (c.entries.value entry)

def canEvict (c : TwoQCache Key) (entry : Nat) : Bool := c.slices.canEvict (c.entries.value entry)

variable [DecidableEq Key]

def get (c : TwoQCache Key) (key : Key) : TwoQCache Key × Option Nat :=
  match c.a1inMap key with
  | some entry =>
    let r := c.amList.spliceBack c.a1inList c.entries entry
    ({ c with
        a1inCurrentSize := c.a1inCurrentSize - c.itemSize entry,
        amList := r.1, a1inList := r.2.1, entries := r.2.2,
        amMap := Function.update c.amMap key (some entry),
        a1inMap := Function.update c.a1inMap key none }, some entry)
  | none =>
    match c.amMap key with
    | some entry =>
      let r := c.amList.moveToBack c.entries entry
      ({ c with amList := r.1, entries := r.2 }, some entry)
    | none => (c, none)

/-- A ghost leaves the list and the map, and its slot is free again. -/
def dropGhost (c : TwoQCache Key) (key : Key) (ghost : Nat) : TwoQCache Key :=
  let r := c.a1outList.unlink c.ghosts ghost
  { c with
    a1outList := r.1, ghosts := r.2, ghostPool := c.ghostPool.free ghost,
    a1outMap := Function.update c.a1outMap key none }

def addGhost (c : TwoQCache Key) (key : Key) : TwoQCache Key :=
  let a := c.ghostPool.alloc c.ghosts key 0
  let r := c.a1outList.pushBack a.2.1 a.2.2
  { c with
    ghostPool := a.1, a1outList := r.1, ghosts := r.2,
    a1outMap := Function.update c.a1outMap key (some a.2.2) }

def enterAm (c : TwoQCache Key) (key : Key) (value : Nat) : TwoQCache Key :=
  let a := c.entryPool.alloc c.entries key value
  let r := c.amList.pushBack a.2.1 a.2.2
  { c with
    entryPool := a.1, amList := r.1, entries := r.2, slices := c.slices.incRef value,
    amMap := Function.update c.amMap key (some a.2.2) }

def enterA1in (c : TwoQCache Key) (key : Key) (value : Nat) : TwoQCache Key :=
  let a := c.entryPool.alloc c.entries key value
  let r := c.a1inList.pushBack a.2.1 a.2.2
  { c with
    entryPool := a.1, a1inList := r.1, entries := r.2, slices := c.slices.incRef value,
    a1inMap := Function.update c.a1inMap key (some a.2.2),
    a1inCurrentSize := c.a1inCurrentSize + c.slices.getItemSize value }

/-- What `put` does with a key that is in none of the queues, before it prunes them. -/
def add (c : TwoQCache Key) (key : Key) (value : Nat) : TwoQCache Key :=
  let c := { c with size := c.size + c.slices.getItemSize value }
  match c.a1outMap key with
  | some ghost => (c.dropGhost key ghost).enterAm key value
  | none => c.enterA1in key value

/-- The entry's slot is free again, its pointer to the slice is gone. -/
def freeEntry (c : TwoQCache Key) (entry : Nat) : TwoQCache Key :=
  { c with
    entryPool := c.entryPool.free entry, slices := c.slices.decRef (c.entries.value entry) }

/-- The first loop of `maintain_a1in_size`: the entries to evict, their sizes are taken off. -/
def collect (c : TwoQCache Key) : Nat → Nat → Nat → List Nat × TwoQCache Key
  | 0, _, _ => ([], c)
  | n + 1, e, targetSize =>
    if e = 0 ∨ targetSize ≤ c.a1inSizeLimit then
      ([], c)
    else if c.canEvict e then
      let itemSize := c.itemSize e
      let r := collect { c with
        size := c.size - itemSize, a1inCurrentSize := c.a1inCurrentSize - itemSize }
        n (c.entries.next e) (targetSize - itemSize)
      (e :: r.1, r.2)
    else
      collect c n (c.entries.next e) targetSize

/-- The second loop of `maintain_a1in_size`: the entry becomes a ghost. -/
def evictA1in (c : TwoQCache Key) (entry : Nat) : TwoQCache Key :=
  let key := c.entries.key entry
  let c := c.addGhost key
  let r := c.a1inList.unlink c.entries entry
  { c with
    a1inMap := Function.update c.a1inMap key none, a1inList := r.1, entries := r.2 }.freeEntry entry

def maintainA1inSize (c : TwoQCache Key) : TwoQCache Key :=
  if c.a1inCurrentSize ≤ c.a1inSizeLimit then
    c
  else
    let r := c.collect c.a1inList.size c.a1inList.head c.a1inCurrentSize
    r.1.foldl evictA1in r.2

/-- The loop of `maintain_a1out_size`, which takes at most `n` ghosts away. -/
def maintainA1outSize : Nat → TwoQCache Key → TwoQCache Key
  | 0, c => c
  | n + 1, c =>
    if c.a1outSizeLimit < c.a1outList.size ∧ c.a1outList.size ≠ 0 then
      let ghost := c.a1outList.head
      maintainA1outSize n (c.dropGhost (c.ghosts.key ghost) ghost)
    else
      c

/-- The inner loop of `prune`: the first entry that can be evicted. -/
def findEvictable (c : TwoQCache Key) : Nat → Nat → Option Nat
  | 0, _ => none
  | n + 1, entry =>
    if entry = 0 then
      none
    else if c.canEvict entry then
      some entry
    else
      findEvictable c n (c.entries.next entry)

def evictAm (c : TwoQCache Key) (entry : Nat) : TwoQCache Key :=
  let r := c.amList.unlink c.entries entry
  { c with
    size := c.size - c.itemSize entry,
    amMap := Function.update c.amMap (c.entries.key entry) none,
    amList := r.1, entries := r.2 }.freeEntry entry

/-- The outer loop of `prune`, which evicts at most `n` entries. -/
def pruneAm : Nat → TwoQCache Key → TwoQCache Key
  | 0, c => c
  | n + 1, c =>
    if c.capacity < c.size ∧ c.amList.size ≠ 0 then
      match c.findEvictable c.amList.size c.amList.head with
      | some entry => pruneAm n (c.evictAm entry)
      | none => c
    else
      c

def prune (c : TwoQCache Key) : TwoQCache Key :=
  let c := c.maintainA1inSize
  let c := maintainA1outSize c.a1outList.size c
  pruneAm c.amList.size c

def put (c : TwoQCache Key) (key : Key) (value : Nat) : TwoQCache Key :=
  if (c.a1inMap key).isSome ∨ (c.amMap key).isSome then
    c
  else
    (c.add key value).prune

end TwoQCache

/-- What happens to a cache. Between the calls the reference counts change. -/
inductive CacheOp (Key : Type) where
  | get (key : Key)
  | put (key : Key) (value : Nat)
  | recount (ref : Nat → Nat)

namespace TwoQCache

variable [DecidableEq Key]

def step (c : TwoQCache Key) : CacheOp Key → TwoQCache Key
  | .get key => (c.get key).1
  | .put key value => c.put key value
  | .recount ref => { c with slices := { c.slices with ref := ref } }

def run (c : TwoQCache Key) (ops : List (CacheOp Key)) : TwoQCache Key := ops.foldl step c

end TwoQCache
end Leaves
