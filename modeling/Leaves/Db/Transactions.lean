import Leaves.Core.Serial

/-!
The transactions of `db/_db.hpp` with the cursors and the log around them: the pages of the
transactions with their reference counts, the lock, and what goes to the log and when. The content
of a transaction is of any type.
-/

namespace Leaves

/-- A record of the log, `begin` with the id of the transaction and the number of its start. -/
inductive LogRecord where
  | begin (txnId number : Nat)
  | op
  | prepare
  | commit
  deriving DecidableEq, Repr

/-- `wal_parse` in the middle of a file. -/
structure LogParser where
  stopped : Bool
  current : Option (Nat × Nat)
  prepared : Bool
  committed : List (Nat × Nat)
  deriving DecidableEq, Repr

namespace LogParser

def init : LogParser := ⟨false, none, false, []⟩

/-- A record outside a transaction stops the parser. -/
def step (p : LogParser) (r : LogRecord) : LogParser :=
  if p.stopped then p
  else
    match r, p.current with
    | .begin txnId number, _ => { p with current := some (txnId, number), prepared := false }
    | _, none => { p with stopped := true }
    | .op, some _ => p
    | .prepare, some _ => { p with prepared := true }
    | .commit, some t => { p with
        current := none, prepared := false
        committed := if p.prepared then p.committed ++ [t] else p.committed }

def parse (rs : List LogRecord) : LogParser := rs.foldl step init

theorem parse_append (rs rs' : List LogRecord) : parse (rs ++ rs') = rs'.foldl step (parse rs) :=
  List.foldl_append

end LogParser

/-- `_Transaction` -/
structure TxnPage (α : Type) where
  txnId : Nat
  /-- the transactions before it, from `start_txn` on -/
  older : List Nat
  refs : UInt32
  root : α

/-- `_TransactionalCursor` -/
structure TxnCursor where
  /-- the page of `_txn` -/
  txn : Nat
  useWal : Bool
  deriving DecidableEq, Repr

/-- A page is known by the number of its allocation. -/
structure TransactionDB (α : Type) where
  page : Nat → TxnPage α
  pageCount : Nat
  readTxn : Nat
  preparedTxn : Nat
  nextTxnPage : Option Nat
  txnLock : Bool
  txnCursorId : Option Nat
  activeTxn : Option Nat
  cursors : List (Option TxnCursor)
  walOpen : Bool
  file : Bool → List LogRecord
  nextLog : Bool
  activeLog : Bool
  buf : List LogRecord
  hasRecords : Bool
  prepared : Bool
  /-- the number of the transaction that has been started last -/
  number : Nat
  /-- the numbers of the transactions that have been committed -/
  committed : List Nat
  /-- and of those whose `commit` has come back without an exception -/
  succeeded : List Nat

/-- Where a call ends with an exception. -/
inductive FailedCall where
  /-- `start_transaction`: the log cannot be opened -/
  | openWal (c : Nat)
  /-- `start_transaction`: there is no page for the garbage after `freed` old transactions -/
  | startFree (c : Nat) (useWal : Bool) (freed : Nat)
  /-- `prepare_commit` and `commit`: the records cannot be written, which leaves no bytes -/
  | prepareWrite (c : Nat)
  /-- `prepare_commit`: they are not synchronised -/
  | prepareSync (c : Nat)
  /-- `prepare_commit`: there is no page for the next transaction -/
  | prepareClone (c : Nat)
  /-- `prepare_commit(true)`: the storage is not flushed -/
  | prepareFlush (c : Nat)
  /-- `commit`: the record COMMIT cannot be written -/
  | commitWrite (c : Nat)
  /-- `commit`: it is not synchronised -/
  | commitSync (c : Nat)
  /-- `commit`: the flush task cannot be queued -/
  | commitSubmit (c : Nat)
  /-- `commit`: there is no page for the next transaction -/
  | commitClone (c : Nat)
  /-- `commit(true)`: the storage is not flushed -/
  | commitFlush (c : Nat)
  deriving DecidableEq, Repr

namespace TransactionDB

variable {α : Type}

/-- A new database. -/
def create (root : α) : TransactionDB α where
  page _ := ⟨1, [], 0, root⟩
  pageCount := 2
  readTxn := 0
  preparedTxn := 0
  nextTxnPage := some 1
  txnLock := false
  txnCursorId := none
  activeTxn := none
  cursors := []
  walOpen := false
  file _ := []
  nextLog := false
  activeLog := false
  buf := []
  hasRecords := false
  prepared := false
  number := 0
  committed := []
  succeeded := []

def setPage (s : TransactionDB α) (p : Nat) (t : TxnPage α) : TransactionDB α :=
  { s with page := Function.update s.page p t }

def setRefs (s : TransactionDB α) (p : Nat) (refs : UInt32) : TransactionDB α :=
  s.setPage p { s.page p with refs }

def setCursor (s : TransactionDB α) (c : Nat) (cur : Option TxnCursor) : TransactionDB α :=
  { s with cursors := s.cursors.set c cur }

def cursor? (s : TransactionDB α) (c : Nat) : Option TxnCursor := (s.cursors[c]?).join

/-- `_set_txn` -/
def setTxn (s : TransactionDB α) (c : Nat) (cur : TxnCursor) (p : Nat) : TransactionDB α :=
  let s := s.setRefs cur.txn ((s.page cur.txn).refs - 1)
  let s := s.setRefs p ((s.page p).refs + 1)
  s.setCursor c (some { cur with txn := p })

def createCursor (s : TransactionDB α) : TransactionDB α :=
  let s := s.setRefs s.readTxn ((s.page s.readTxn).refs + 1)
  { s with cursors := s.cursors ++ [some ⟨s.readTxn, false⟩] }

/-- `update`, `txn_ref` counts the page of the new transaction for as long as it takes. -/
def update (s : TransactionDB α) (c : Nat) (cur : TxnCursor) : TransactionDB α :=
  if s.readTxn = cur.txn then s
  else if Serial.lt (s.page cur.txn).txnId (s.page s.readTxn).txnId then s.setTxn c cur s.readTxn
  else s

/-- `wal_begin` -/
def walBegin (s : TransactionDB α) (p : Nat) : TransactionDB α :=
  { s with
    activeLog := s.nextLog
    buf := [.begin (s.page p).txnId s.number]
    hasRecords := false
    prepared := false }

/-- `start_transaction` of the database up to the walk over the old transactions. -/
def lockTxn (s : TransactionDB α) (c p : Nat) : TransactionDB α :=
  let last := s.page s.readTxn
  let s := s.setPage p { s.page p with txnId := Serial.add last.txnId 1 }
  let s := s.setRefs s.readTxn ((s.page s.readTxn).refs + 1)
  { s with
    txnLock := true, txnCursorId := some c, activeTxn := some p, nextTxnPage := none
    number := s.number + 1 }

/-- The transactions the walk looks at, and those it frees: nobody reads them. -/
def walk (s : TransactionDB α) : List Nat := (s.page s.readTxn).older ++ [s.readTxn]

def freed (s : TransactionDB α) : List Nat := s.walk.takeWhile fun q => (s.page q).refs = 0

/-- The walk and what comes after it. -/
def endWalk (s : TransactionDB α) (p : Nat) : TransactionDB α :=
  let older := s.walk.dropWhile fun q => (s.page q).refs = 0
  let s := s.setPage p { s.page p with older }
  s.setRefs s.readTxn ((s.page s.readTxn).refs - 1)

/-- The cursor starts a transaction on the page `p`, nobody has the lock. -/
def startTxn (s : TransactionDB α) (c : Nat) (cur : TxnCursor) (useWal : Bool) (p : Nat) :
    TransactionDB α :=
  let s := { s with walOpen := s.walOpen || useWal }
  let s := ((s.lockTxn c p).endWalk p).setTxn c { cur with useWal } p
  if useWal then s.walBegin p else s

/-- `start_transaction`, it waits for the lock. -/
def start (s : TransactionDB α) (c : Nat) (useWal : Bool) : Option (TransactionDB α) :=
  match s.cursor? c with
  | none => none
  | some cur =>
    if s.txnCursorId = some c then some s
    else if s.txnLock then none
    else s.nextTxnPage.map fun p => s.startTxn c cur useWal p

/-- The page and the cursor of the transaction, if it is the one of the cursor. -/
def owned (s : TransactionDB α) (c : Nat) : Option (Nat × TxnCursor) :=
  if s.txnCursorId = some c then
    s.activeTxn.bind fun p => (s.cursor? c).map fun cur => (p, cur)
  else none

/-- Changes made in the transaction, below the root of `_txn`. -/
def write (s : TransactionDB α) (cur : TxnCursor) (root : α) : TransactionDB α :=
  let s := s.setPage cur.txn { s.page cur.txn with root }
  if cur.useWal then { s with buf := s.buf ++ [.op], hasRecords := true } else s

/-- `_wal_pwrite` at `write_off` -/
def pwrite (s : TransactionDB α) (rs : List LogRecord) : TransactionDB α :=
  { s with file := Function.update s.file s.activeLog (s.file s.activeLog ++ rs) }

/-- `prepare` of the log. -/
def walPrepare (s : TransactionDB α) : TransactionDB α :=
  if s.prepared then s
  else if s.hasRecords then
    { s.pwrite (s.buf ++ [.prepare]) with buf := [], prepared := true }
  else { s with buf := [], prepared := true }

/-- `commit` of the log. -/
def walCommit (s : TransactionDB α) : TransactionDB α :=
  if s.hasRecords then s.pwrite [.commit] else { s with buf := [] }

/-- `prepare_commit` of the database: the next transaction gets a copy of the page. -/
def prepareTxn (s : TransactionDB α) (p : Nat) : TransactionDB α :=
  if s.preparedTxn ≠ s.readTxn then s
  else
    { s.setPage s.pageCount { s.page p with refs := 0 } with
      pageCount := s.pageCount + 1, nextTxnPage := some s.pageCount, preparedTxn := p }

def endTransaction (s : TransactionDB α) : TransactionDB α :=
  { s with txnCursorId := none, activeTxn := none, txnLock := false }

/-- `rollback` of the database: the page gets what has been committed and is for the next one. -/
def rollbackTxn (s : TransactionDB α) (p : Nat) : TransactionDB α :=
  { s.setPage p { s.page s.readTxn with refs := 0 } with
    preparedTxn := s.readTxn, nextTxnPage := some p }.endTransaction

/-- Both prepared, the log with the record COMMIT. -/
def walCommitted (s : TransactionDB α) (cur : TxnCursor) : TransactionDB α :=
  if cur.useWal then s.walPrepare.walCommit else s

def prepareCommit (s : TransactionDB α) (c : Nat) : TransactionDB α :=
  match s.owned c with
  | none => s
  | some (p, cur) => (if cur.useWal then s.walPrepare else s).prepareTxn p

/-- The committed transaction is the prepared one. -/
def switchTxn (s : TransactionDB α) : TransactionDB α :=
  { s with readTxn := s.preparedTxn, committed := s.committed ++ [s.number] }

def commit (s : TransactionDB α) (c : Nat) : TransactionDB α :=
  match s.owned c with
  | none => s
  | some (p, cur) =>
    let s := (((s.walCommitted cur).prepareTxn p).switchTxn).endTransaction
    { s with succeeded := s.succeeded ++ [s.number] }

/-- `rollback`: the cursor goes back to the committed transaction. -/
def rollback (s : TransactionDB α) (c : Nat) : TransactionDB α :=
  match s.owned c with
  | none => s
  | some (p, cur) =>
    let s := if cur.useWal then { s with buf := [], hasRecords := false, prepared := false } else s
    let s := s.rollbackTxn p
    let s := s.setRefs s.readTxn ((s.page s.readTxn).refs + 1)
    s.setCursor c (some { cur with txn := s.readTxn })

def destroyCursor (s : TransactionDB α) (c : Nat) : TransactionDB α :=
  let s := s.rollback c
  match s.cursor? c with
  | none => s
  | some cur => (s.setRefs cur.txn ((s.page cur.txn).refs - 1)).setCursor c none

/-- A background task has flushed the storage and clears the file that is not in use. -/
def flushed (s : TransactionDB α) : TransactionDB α :=
  { s with file := Function.update s.file (!s.activeLog) [], nextLog := !s.activeLog }

/-- The call has written to the log before it fails. -/
def logs (s : TransactionDB α) (cur : TxnCursor) : Prop :=
  cur.useWal = true ∧ s.hasRecords = true

instance (s : TransactionDB α) (cur : TxnCursor) : Decidable (s.logs cur) :=
  inferInstanceAs (Decidable (_ ∧ _))

/-- What a call leaves behind that ends with an exception, `none` where it does not come to this
point. -/
def fail (s : TransactionDB α) : FailedCall → Option (TransactionDB α)
  | .openWal c =>
    (s.cursor? c).bind fun cur =>
      if s.txnCursorId ≠ some c ∧ s.walOpen = false then
        some (s.setCursor c (some { cur with useWal := true }))
      else none
  | .startFree c useWal freed =>
    (s.cursor? c).bind fun cur => s.nextTxnPage.bind fun p =>
      if s.txnLock = false ∧ freed < (s.lockTxn c p).freed.length then
        some ({ s with walOpen := s.walOpen || useWal }.lockTxn c p
          |>.setCursor c (some { cur with useWal }))
      else none
  | .prepareWrite c =>
    (s.owned c).bind fun o =>
      if s.logs o.2 ∧ s.prepared = false then some { s with buf := s.buf ++ [.prepare] } else none
  | .prepareSync c =>
    (s.owned c).bind fun o =>
      if s.logs o.2 ∧ s.prepared = false then
        some { s.pwrite (s.buf ++ [.prepare]) with buf := s.buf ++ [.prepare] }
      else none
  | .prepareClone c =>
    (s.owned c).bind fun o =>
      if s.preparedTxn = s.readTxn then some (if o.2.useWal then s.walPrepare else s) else none
  | .prepareFlush c =>
    (s.owned c).bind fun _ =>
      if s.preparedTxn = s.readTxn then some (s.prepareCommit c) else none
  | .commitWrite c =>
    (s.owned c).bind fun o => if s.logs o.2 then some s.walPrepare else none
  | .commitSync c =>
    (s.owned c).bind fun o => if s.logs o.2 then some (s.walCommitted o.2) else none
  | .commitSubmit c =>
    (s.owned c).bind fun o => if o.2.useWal then some (s.walCommitted o.2) else none
  | .commitClone c =>
    (s.owned c).bind fun o =>
      if s.preparedTxn = s.readTxn then some ((s.walCommitted o.2).rollbackTxn o.1) else none
  | .commitFlush c =>
    (s.owned c).bind fun o => some (((s.walCommitted o.2).prepareTxn o.1).switchTxn)

end TransactionDB

inductive TransactionEvent (α : Type) where
  | createCursor
  | destroyCursor (c : Nat)
  | update (c : Nat)
  | start (c : Nat) (useWal : Bool)
  | write (c : Nat) (root : α)
  | prepareCommit (c : Nat)
  | commit (c : Nat)
  | rollback (c : Nat)
  | flushed
  | fail (call : FailedCall)

namespace TransactionDB

variable {α : Type}

def step (s : TransactionDB α) : TransactionEvent α → Option (TransactionDB α)
  | .createCursor => some s.createCursor
  | .destroyCursor c => some (s.destroyCursor c)
  | .update c => (s.cursor? c).map fun cur => s.update c cur
  | .start c useWal => s.start c useWal
  | .write c root => (s.owned c).map fun o => s.write o.2 root
  | .prepareCommit c => some (s.prepareCommit c)
  | .commit c => some (s.commit c)
  | .rollback c => some (s.rollback c)
  | .flushed => some s.flushed
  | .fail call => s.fail call

def run (s : TransactionDB α) : List (TransactionEvent α) → Option (TransactionDB α)
  | [] => some s
  | e :: es => (s.step e).bind fun s => run s es

end TransactionDB
end Leaves
