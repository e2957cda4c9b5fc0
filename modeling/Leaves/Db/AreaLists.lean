import Leaves.Memory.AreaPool

/-!
The areas of the databases of a storage, `db/_db.hpp`. The heads of the two lists of a database are
in its header, the tails are in the page of the transaction.
-/

namespace Leaves

/-- `area_list_tail_single` and `area_list_tail_multi` of a transaction page. -/
structure TxnTails where
  single : Nat
  multi : Nat
  deriving DecidableEq, Repr

/-- A database without its contents. `prepared` says that `prepared_txn` is not `read_txn`. -/
structure DbAreas where
  headSingle : Nat
  headMulti : Nat
  readTxn : TxnTails
  activeTxn : Option TxnTails
  prepared : Bool
  nextTxnPage : Option TxnTails
  deriving DecidableEq, Repr

def AreaFile.setNext (f : AreaFile) (a next : Nat) : AreaFile :=
  { f with areas := f.areas.setNext a next }

namespace DbAreas

/-- A new database has one area, the next transaction page is a copy of the first one. -/
def init (f : AreaFile) : Option (AreaFile × DbAreas) :=
  match f.allocSingleArea with
  | none => none
  | some (f, a) =>
    some (f, { headSingle := a, headMulti := 0, readTxn := ⟨a, 0⟩, activeTxn := none,
               prepared := false, nextTxnPage := some ⟨a, 0⟩ })

/-- The transaction takes over the page that is ready for it. -/
def startTransaction (d : DbAreas) : DbAreas :=
  match d.activeTxn with
  | some _ => d
  | none => { d with activeTxn := d.nextTxnPage, nextTxnPage := none }

/-- `none` is an exception or, outside of a transaction, a failed assertion. -/
def allocSingleArea (d : DbAreas) (f : AreaFile) : Option (AreaFile × DbAreas) :=
  match d.activeTxn with
  | none => none
  | some txn =>
    match f.allocSingleArea with
    | none => none
    | some (f, a) => some (f.setNext txn.single a, { d with activeTxn := some { txn with single := a } })

def allocMultiArea (d : DbAreas) (f : AreaFile) (size : Nat) : Option (AreaFile × DbAreas) :=
  match d.activeTxn with
  | none => none
  | some txn =>
    match f.allocMultiArea size with
    | none => none
    | some (f, a) =>
      if txn.multi = 0 then
        some (f, { d with headMulti := a, activeTxn := some { txn with multi := a } })
      else
        some (f.setNext txn.multi a, { d with activeTxn := some { txn with multi := a } })

/-- The areas behind `start` go back to the pool. -/
def returnSingleRange (f : AreaFile) (start stop : Nat) : AreaFile :=
  if start ≠ 0 ∧ stop ≠ 0 ∧ start ≠ stop then
    (f.returnSingleAreas (f.areas.next start) stop).setNext start 0
  else
    f

/-- The same for the multi areas. Where there has been none before, the whole list goes back. -/
def returnMultiRange (f : AreaFile) (headMulti start stop : Nat) : AreaFile × Nat :=
  if stop ≠ 0 ∧ start ≠ stop then
    if start = 0 then
      (f.returnMultiAreas headMulti stop, 0)
    else
      ((f.returnMultiAreas (f.areas.next start) stop).setNext start 0, headMulti)
  else
    (f, headMulti)

/-- The page of the transaction becomes the next one, with the contents of the read transaction. -/
def rollback (d : DbAreas) (f : AreaFile) : AreaFile × DbAreas :=
  match d.activeTxn with
  | none => (f, d)
  | some txn =>
    let f := returnSingleRange f d.readTxn.single txn.single
    let (f, headMulti) := returnMultiRange f d.headMulti d.readTxn.multi txn.multi
    (f, { d with headMulti, activeTxn := none, prepared := false, nextTxnPage := some d.readTxn })

/-- The next page is a clone. It is allocated first, `grows` says that this needs a new area. -/
def prepareCommit (d : DbAreas) (f : AreaFile) (grows : Bool) : Option (AreaFile × DbAreas) :=
  match d.activeTxn with
  | none => some (f, d)
  | some _ =>
    if d.prepared then
      some (f, d)
    else
      match if grows then d.allocSingleArea f else some (f, d) with
      | none => none
      | some (f, d) => some (f, { d with nextTxnPage := d.activeTxn, prepared := true })

def commit (d : DbAreas) (f : AreaFile) (grows : Bool) : AreaFile × DbAreas :=
  match d.prepareCommit f grows with
  | none => d.rollback f
  | some (f, d) =>
    match d.activeTxn with
    | none => (f, d)
    | some txn => (f, { d with readTxn := txn, activeTxn := none, prepared := false })

def returnAreas (d : DbAreas) (f : AreaFile) : AreaFile :=
  let f :=
    if d.headSingle ≠ 0 ∧ d.readTxn.single ≠ 0 then
      f.returnSingleAreas d.headSingle d.readTxn.single
    else
      f
  if d.headMulti ≠ 0 ∧ d.readTxn.multi ≠ 0 then
    f.returnMultiAreas d.headMulti d.readTxn.multi
  else
    f

/-- An active transaction is an exception. -/
def reset (d : DbAreas) (f : AreaFile) : AreaFile × DbAreas :=
  match d.activeTxn with
  | some _ => (f, d)
  | none =>
    let f := d.returnAreas f
    match init f with
    | none => (f, d)
    | some r => r

/-- The first area with the header is kept. -/
def resetInPlace (d : DbAreas) (f : AreaFile) : AreaFile × DbAreas :=
  match d.activeTxn with
  | some _ => (f, d)
  | none =>
    let second := f.areas.next d.headSingle
    let f :=
      if d.headSingle ≠ 0 ∧ second ≠ 0 then
        (f.returnSingleAreas second d.readTxn.single).setNext d.headSingle 0
      else
        f
    let (f, headMulti) :=
      if d.headMulti ≠ 0 ∧ d.readTxn.multi ≠ 0 then
        (f.returnMultiAreas d.headMulti d.readTxn.multi, 0)
      else
        (f, d.headMulti)
    (f, { d with headMulti, readTxn := ⟨d.headSingle, 0⟩, prepared := false,
                 nextTxnPage := some ⟨d.headSingle, 0⟩ })

end DbAreas

/-- A storage with its databases. -/
structure AreaStore where
  file : AreaFile
  dbs : List DbAreas

inductive AreaAction where
  | create
  | start (i : Nat)
  /-- a page is needed and the area of the transaction is full -/
  | allocPage (i : Nat)
  /-- a big value of this size, padded, is not in the free chunks -/
  | allocBig (i : Nat) (paddedSize : Nat)
  | prepare (i : Nat) (grows : Bool)
  | commit (i : Nat) (grows : Bool)
  | rollback (i : Nat)
  | reset (i : Nat)
  | resetInPlace (i : Nat)
  | remove (i : Nat)
  deriving DecidableEq, Repr

namespace AreaStore

def init (regionSize : Nat) : AreaStore := ⟨AreaFile.init regionSize, []⟩

/-- The request of `_BigMemory::alloc` -/
def bigSize (paddedSize : Nat) : Nat := padding (paddedSize + AREA_HEADER_SIZE) AREA_SIZE

def set (s : AreaStore) (i : Nat) (r : AreaFile × DbAreas) : AreaStore := ⟨r.1, s.dbs.set i r.2⟩

/-- A call that throws leaves the state as it was. -/
def setSome (s : AreaStore) (i : Nat) : Option (AreaFile × DbAreas) → AreaStore
  | none => s
  | some r => s.set i r

def onDb (s : AreaStore) (i : Nat) (op : DbAreas → AreaStore) : AreaStore :=
  match s.dbs[i]? with
  | none => s
  | some d => op d

def step (s : AreaStore) : AreaAction → AreaStore
  | .create =>
    match DbAreas.init s.file with
    | none => s
    | some (f, d) => ⟨f, s.dbs ++ [d]⟩
  | .start i => s.onDb i fun d => s.set i (s.file, d.startTransaction)
  | .allocPage i => s.onDb i fun d => s.setSome i (d.allocSingleArea s.file)
  | .allocBig i paddedSize =>
    s.onDb i fun d => s.setSome i (d.allocMultiArea s.file (bigSize paddedSize))
  | .prepare i grows => s.onDb i fun d => s.setSome i (d.prepareCommit s.file grows)
  | .commit i grows => s.onDb i fun d => s.set i (d.commit s.file grows)
  | .rollback i => s.onDb i fun d => s.set i (d.rollback s.file)
  | .reset i => s.onDb i fun d => s.set i (d.reset s.file)
  | .resetInPlace i => s.onDb i fun d => s.set i (d.resetInPlace s.file)
  | .remove i =>
    s.onDb i fun d =>
      match d.activeTxn with
      | some _ => s
      | none => ⟨d.returnAreas s.file, s.dbs.eraseIdx i⟩

def run (s : AreaStore) (actions : List AreaAction) : AreaStore := actions.foldl step s

end AreaStore
end Leaves
