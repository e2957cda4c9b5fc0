import Leaves.Db.Deleter

/-!
Changing a database: every change is made by a new cursor that searches for the key first. A value
that is too big for a leaf is replaced by a reference into the big memory.
-/

namespace Leaves

/-- `BigMemory::modify_size`: a big value takes the `inlineSize` bytes of its reference. -/
def modifySize (inlineSize keySize size : Nat) : Nat :=
  let key := u16 keySize % 256
  if MAX_PAGE_SIZE < LeafNode.HEADER_SIZE + size + key then inlineSize else size

/-- A value with the reference the big memory has for it, should it be too big. -/
structure Content where
  data : List UInt8
  ref : List UInt8
  deriving DecidableEq, Repr

/-- What `reserve` makes of a value: `keySize` is what the search has left of the key. -/
def storedValue (keySize : Nat) (v : Content) : Value :=
  if modifySize v.ref.length keySize v.data.length = v.data.length then ⟨false, v.data⟩
  else ⟨true, v.ref⟩

namespace Heap

/-- An empty database in the areas of a storage. -/
def create (storage : Storage) : Heap where
  page := default
  mem := ⟨0, 0, 0, 0, fun _ => []⟩
  storage
  areaCount := 0
  txnId := 1
  startTxnId := 0

/-- The next transaction: transactions from `oldest` on may still be read. -/
def nextTransaction (h : Heap) (oldest : Nat) : Heap :=
  { h with txnId := h.txnId + 1, startTxnId := min oldest h.txnId }

end Heap

namespace Cursor

/-- `reserve` and the copy of the bytes. -/
def put (h : Heap) (c : Cursor) (v : Content) : Except Fault (Heap × Cursor) :=
  value h c (storedValue c.restKey.length v)

end Cursor

inductive Edit where
  | value (key : Key) (v : Content)
  | remove (key : Key)
  | nextTransaction (oldest : Nat)

namespace Edit

/-- The pages and the root after a change. -/
def exec (h : Heap) (root : Addr) : Edit → Except Fault (Heap × Addr)
  | .value key v =>
    match (Cursor.init root).find h.rd key with
    | none => .error .keyTooBig
    | some c => (c.put h v).map fun r => (r.1, r.2.root)
  | .remove key =>
    match (Cursor.init root).find h.rd key with
    | none => .error .keyTooBig
    | some c => (c.remove h).map fun r => (r.1, r.2.root)
  | .nextTransaction oldest => .ok (h.nextTransaction oldest, root)

/--
A run of changes. The exceptions leave the database as it is, nothing is known after a node has been
written over the end of its page.
-/
def run (h : Heap) (root : Addr) : List Edit → Option (Heap × Addr)
  | [] => some (h, root)
  | e :: es =>
    match e.exec h root with
    | .ok (h, root) => run h root es
    | .error .pageOverflow => none
    | .error _ => run h root es

/-- The change of the map. -/
def apply (m : List (Key × Content)) : Edit → List (Key × Content)
  | .value key v => if key.length ≤ MAX_KEY_SIZE then OrdMap.insert m key v else m
  | .remove key => if key.length ≤ MAX_KEY_SIZE then OrdMap.erase m key else m
  | .nextTransaction _ => m

end Edit
end Leaves
