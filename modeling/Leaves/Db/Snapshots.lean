import Leaves.Db.Chains
import Leaves.Db.Kept
import Leaves.Lib.Versions

/-!
The database with all its versions in one storage: the transactions of `db/_db.hpp` and the pages
their tries are made of. The page of a transaction holds the root and the state of the memory, its
copy for the next transaction holds the same. Big values are known by their references, the
containers of the queues by what is queued.
-/

namespace Leaves

/-- What the page of a transaction says about the other pages. -/
structure TxnContent where
  root : Addr
  mem : MemManager
  /-- the areas up to the tail of the list -/
  areaCount : Nat

structure SnapshotDB where
  txns : TransactionDB TxnContent
  /-- where the page of a transaction is -/
  offset : Nat → Addr
  page : Nat → Page
  storage : Storage
  startTxnId : Nat

/-- The calls of the cursors, and the areas the storage hands out once some have been returned. -/
inductive SnapshotEvent where
  | createCursor
  | destroyCursor (c : Nat) (storage : Storage)
  | update (c : Nat)
  | startTransaction (c : Nat)
  | value (c : Nat) (key : Key) (v : Content)
  | remove (c : Nat) (key : Key)
  | prepareCommit (c : Nat)
  | commit (c : Nat)
  | rollback (c : Nat) (storage : Storage)

namespace SnapshotDB

/-- The size class of the page of a transaction, `sizeof(_TransactionBase)` is 448. -/
def TXN_SLOT : Nat := assignSlot 448

/-- `sizeof(_DBHeader)`, padded -/
def DB_HEADER_SIZE : Nat := 120

/-- The first area begins with the header and the page of the first transaction. -/
def firstPage (storage : Storage) : Addr := storage.area 0 + AREA_HEADER_SIZE + DB_HEADER_SIZE

def firstMem (storage : Storage) : MemManager :=
  ⟨firstPage storage + pageSize TXN_SLOT, storage.area 0 + AREA_SIZE, 0, 0, fun _ => []⟩

/-- `init`, with the page for the next transaction. -/
def create (storage : Storage) : SnapshotDB :=
  let next := (firstMem storage).alloc TXN_SLOT 0 (storage.area 1)
  { txns := TransactionDB.create ⟨0, next.2.1, 1 + next.2.2.toNat⟩
    offset := fun n => if n = 0 then firstPage storage else next.1
    page := fun a =>
      if a = firstPage storage ∨ a = next.1 then
        { (default : Page) with txnId := 1, slotId := TXN_SLOT }
      else default
    storage
    startTxnId := 0 }

/-- The pages with the memory of the transaction on the page `p`. -/
def heap (s : SnapshotDB) (p : Nat) : Heap where
  page := s.page
  mem := (s.txns.page p).root.mem
  storage := s.storage
  areaCount := (s.txns.page p).root.areaCount
  txnId := (s.txns.page p).txnId
  startTxnId := s.startTxnId

def root (s : SnapshotDB) (p : Nat) : Addr := (s.txns.page p).root.root

def rd (s : SnapshotDB) (a : Addr) : Node := (s.page a).node

/-- What the transaction on the page `p` has made of the pages and of its root. -/
def store (s : SnapshotDB) (p : Nat) (h : Heap) (root : Addr) : SnapshotDB :=
  { s with
    txns := s.txns.setPage p { s.txns.page p with root := ⟨root, h.mem, h.areaCount⟩ }
    page := h.page }

/-- `_start_txn_id` after the walk. -/
def oldestTxnId (txns : TransactionDB TxnContent) (p : Nat) : Nat :=
  match (txns.page p).older with
  | [] => (txns.page txns.readTxn).txnId
  | q :: _ => (txns.page q).txnId

/-- `start_transaction`: the pages of the old transactions that nobody reads are freed. -/
def startTransaction (s : SnapshotDB) (c : Nat) : Option SnapshotDB :=
  (s.txns.start c false).map fun txns =>
    match s.txns.nextTxnPage with
    | some p =>
      if s.txns.txnCursorId = some c then s
      else
        let started := { s with txns, startTxnId := oldestTxnId txns p }
        let freed := (s.txns.lockTxn c p).freed.map s.offset
        started.store p (freed.foldl Heap.free (started.heap p)) (started.root p)
    | none => s

/-- A change of the map by the cursor that has the transaction. Nothing is known after a node has
been written over the end of its page. -/
def edit (s : SnapshotDB) (c : Nat) (e : Edit) : Option SnapshotDB :=
  (s.txns.owned c).bind fun o =>
    match e.exec (s.heap o.1) (s.root o.1) with
    | .ok (h, root) => some (s.store o.1 h root)
    | .error .pageOverflow => none
    | .error _ => some s

/-- `clone`: the page for the next transaction is allocated before it is filled. -/
def clone (s : SnapshotDB) (p : Nat) : SnapshotDB :=
  match (s.heap p).allocSlot TXN_SLOT with
  | .ok (a, h) =>
    { s.store p h (s.root p) with offset := Function.update s.offset s.txns.pageCount a }
  | .error _ => s

def prepareCommit (s : SnapshotDB) (c : Nat) : SnapshotDB :=
  match s.txns.owned c with
  | none => s
  | some o =>
    let s := if s.txns.preparedTxn = s.txns.readTxn then s.clone o.1 else s
    { s with txns := s.txns.prepareCommit c }

def commit (s : SnapshotDB) (c : Nat) : SnapshotDB :=
  let s := s.prepareCommit c
  { s with txns := s.txns.commit c }

/-- `rollback`: the areas of the transaction are returned, and what is handed out next may be
others. -/
def rollback (s : SnapshotDB) (c : Nat) (storage : Storage) : Option SnapshotDB :=
  match s.txns.owned c with
  | none => some s
  | some _ =>
    let count := (s.txns.page s.txns.readTxn).root.areaCount
    if ∀ i < count, storage.area i = s.storage.area i then
      some { s with txns := s.txns.rollback c, storage }
    else none

def step (s : SnapshotDB) : SnapshotEvent → Option SnapshotDB
  | .createCursor => some { s with txns := s.txns.createCursor }
  | .destroyCursor c storage =>
    (s.rollback c storage).map fun s => { s with txns := s.txns.destroyCursor c }
  | .update c => (s.txns.cursor? c).map fun cur => { s with txns := s.txns.update c cur }
  | .startTransaction c => s.startTransaction c
  | .value c key v => s.edit c (.value key v)
  | .remove c key => s.edit c (.remove key)
  | .prepareCommit c => some (s.prepareCommit c)
  | .commit c => some (s.commit c)
  | .rollback c storage => s.rollback c storage

def run (s : SnapshotDB) : List SnapshotEvent → Option SnapshotDB
  | [] => some s
  | e :: es => (s.step e).bind fun s => run s es

/-- No leaf gets too big for its page, no leaf of an earlier transaction loses its flag, and the
transaction has not been prepared. -/
def editOk (s : SnapshotDB) (c : Nat) (e : Edit) : Bool :=
  (s.txns.owned c).all fun o =>
    e.fits (s.heap o.1) (s.root o.1) && e.keepsFlag (s.heap o.1) (s.root o.1) &&
      s.txns.preparedTxn == s.txns.readTxn

def stepOk (s : SnapshotDB) : SnapshotEvent → Bool
  | .value c key v => s.editOk c (.value key v)
  | .remove c key => s.editOk c (.remove key)
  | _ => true

/-- Every step of a run meets the condition in the state it finds. -/
def runOk (s : SnapshotDB) : List SnapshotEvent → Bool
  | [] => true
  | e :: es => s.stepOk e && (s.step e).all fun s => runOk s es

end SnapshotDB

/-- What an event is for the versions. -/
def SnapshotEvent.abstract : SnapshotEvent → VersionEvent Edit
  | createCursor => .create
  | destroyCursor c _ => .destroy c
  | update c => .update c
  | startTransaction c => .start c
  | value c key v => .change c (.value key v)
  | remove c key => .change c (.remove key)
  | prepareCommit c => .prepare c
  | commit c => .commit c
  | rollback c _ => .rollback c

end Leaves
