import Mathlib.Data.List.Induction
import Leaves.Db.MapCursor

/-!
The cursors of `replication/_replication_db.hpp`: a removal leaves a tombstone in a second trie of
the transaction, which is written by a cursor of its own. Tries are the maps they stand for.
-/

namespace Leaves

open OrdMap

/-- What is known of a removal: the time in seconds and the bytes of the caller. -/
structure Removal where
  key : Key
  now : UInt64
  info : List UInt8
  deriving DecidableEq, Repr

namespace Removal

/-- The value of the deletion trie. -/
def tombstone (r : Removal) : Value := ⟨false, toLittle 8 r.now.toNat ++ r.info⟩

/-- The deletion cursor knows no big values: the tombstone is behind up to 255 bytes of the key. -/
def fits (r : Removal) : Bool :=
  fitsPage (LeafNode.HEADER_SIZE + 255 + r.tombstone.bytes.length)

end Removal

/-- The time of a tombstone, as `_purge` reads it. -/
def timestamp (v : Value) : Nat := ofLittle (v.bytes.take 8)

theorem timestamp_tombstone (r : Removal) : timestamp r.tombstone = r.now.toNat := by
  have htake : r.tombstone.bytes.take 8 = toLittle 8 r.now.toNat :=
    List.take_left' (length_toLittle 8 r.now.toNat)
  rw [timestamp, htake, ofLittle_toLittle]
  exact Nat.mod_eq_of_lt r.now.toNat_lt

/-- `_ReplicationTransaction` -/
structure ReplicationTxn where
  txnId : Nat
  /-- the transactions before it, from `start_txn` on -/
  older : List Nat
  root : List (Key × Value)
  deletionRoot : List (Key × Value)
  deriving Inhabited

/-- The second cursor of a `_ReplicationCursor`. -/
structure DeletionCursor where
  /-- the page with the `deletion_root` its root pointer goes to -/
  page : Nat
  cursor : MapCursor
  /-- the stack is one of the trie behind the root pointer -/
  inSync : Bool

/-- Somebody else has changed what is behind the root pointer. -/
def DeletionCursor.changed (page : Nat) (d : DeletionCursor) : DeletionCursor :=
  if d.page = page then { d with inSync := d.inSync && d.cursor.target.isNone } else d

/-- `_ReplicationCursor` -/
structure ReplicationCursor where
  /-- the page of `_txn` -/
  txn : Nat
  cursor : MapCursor
  deletion : Option DeletionCursor

/-- A page is known by the number of its allocation, so that none is used twice. -/
structure ReplicationDB where
  page : Nat → ReplicationTxn
  pageCount : Nat
  readTxn : Nat
  nextTxnPage : Option Nat
  activeTxn : Option Nat
  txnCursorId : Option Nat
  cursors : Nat → Option ReplicationCursor
  cursorCount : Nat

namespace ReplicationDB

/-- A new database. -/
def create : ReplicationDB where
  page _ := ⟨1, [], [], []⟩
  pageCount := 2
  readTxn := 0
  nextTxnPage := some 1
  activeTxn := none
  txnCursorId := none
  cursors _ := none
  cursorCount := 0

def setPage (s : ReplicationDB) (p : Nat) (t : ReplicationTxn) : ReplicationDB :=
  { s with page := Function.update s.page p t }

def setCursor (s : ReplicationDB) (c : Nat) (cur : ReplicationCursor) : ReplicationDB :=
  { s with cursors := Function.update s.cursors c (some cur) }

/-- `refs` of a page. -/
def pinned (s : ReplicationDB) (p : Nat) : Bool :=
  (List.range s.cursorCount).any fun c => (s.cursors c).any fun cur => cur.txn = p

/-- The deletion cursors of the other cursors keep their stacks. -/
def changed (s : ReplicationDB) (p : Nat) : ReplicationDB :=
  { s with cursors := fun c => (s.cursors c).map fun cur =>
      { cur with deletion := cur.deletion.map (·.changed p) } }

/-- `_TransactionalCursor::_set_txn`, which `start_transaction` and `update` of that class call: it
is not virtual, the one of `_ReplicationCursor` is never called. Where the new root is only another
copy of the same trie a search finds what the cursor has already. -/
def setTxn (s : ReplicationDB) (c : Nat) (cur : ReplicationCursor) (p : Nat) : ReplicationDB :=
  let old := (s.page cur.txn).root
  let root := (s.page p).root
  let searched := cur.cursor.key
  s.setCursor c
    { cur with
      txn := p
      cursor := if searched ≠ [] ∧ old ≠ root then
          MapCursor.find root { cur.cursor with target := none } searched
        else cur.cursor }

/-- `create_cursor`, the constructor updates the cursor. -/
def createCursor (s : ReplicationDB) : ReplicationDB :=
  { s.setCursor s.cursorCount ⟨s.readTxn, .init, none⟩ with cursorCount := s.cursorCount + 1 }

def update (s : ReplicationDB) (c : Nat) (cur : ReplicationCursor) : ReplicationDB :=
  if s.readTxn = cur.txn then s
  else if (s.page cur.txn).txnId < (s.page s.readTxn).txnId then s.setTxn c cur s.readTxn
  else s

/-- `start_transaction`, transactions nobody reads any more are freed. It waits for another cursor.
-/
def startTransaction (s : ReplicationDB) (c : Nat) : Option ReplicationDB :=
  match s.cursors c, s.txnCursorId, s.nextTxnPage with
  | some cur, none, some p =>
    let last := s.page s.readTxn
    let older := (last.older ++ [s.readTxn]).dropWhile fun q => !s.pinned q && q ≠ s.readTxn
    let s' := s.setPage p { s.page p with txnId := last.txnId + 1, older }
    some ({ s' with nextTxnPage := none, activeTxn := some p, txnCursorId := some c }.setTxn c cur p)
  | some _, some id, _ => if id = c then some s else none
  | _, _, _ => none

def find (s : ReplicationDB) (c : Nat) (cur : ReplicationCursor) (key : Key) : ReplicationDB :=
  s.setCursor c { cur with cursor := cur.cursor.find (s.page cur.txn).root key }

/-- The rest of `value(v)`, the transaction has been started. -/
def value (s : ReplicationDB) (c : Nat) (cur : ReplicationCursor) (v : Value) :
    Option ReplicationDB :=
  (cur.cursor.value (s.page cur.txn).root v).map fun r =>
    (s.setPage cur.txn { s.page cur.txn with root := r.1 }).setCursor c { cur with cursor := r.2 }

/-- `get_deletion_cursor`: it is created with the page of the transaction at hand. -/
def deletionCursor (cur : ReplicationCursor) : DeletionCursor :=
  cur.deletion.getD ⟨cur.txn, .init, true⟩

def getDeletionCursor (s : ReplicationDB) (c : Nat) (cur : ReplicationCursor) : ReplicationDB :=
  s.setCursor c { cur with deletion := some (deletionCursor cur) }

/-- `find` and `value` of the deletion cursor. What comes of a stack that is not one of the trie, or
of a page that has been freed, is not known. -/
def insertTombstone (s : ReplicationDB) (c : Nat) (cur : ReplicationCursor) (r : Removal) :
    Option ReplicationDB :=
  let d := deletionCursor cur
  let t := s.page d.page
  if d.inSync ∧ r.fits ∧ (d.page = cur.txn ∨ d.page ∈ (s.page cur.txn).older) then
    ((d.cursor.find t.deletionRoot r.key).value t.deletionRoot r.tombstone).map fun w =>
      ((s.setPage d.page { t with deletionRoot := w.1 }).changed d.page).setCursor c
        { cur with deletion := some { d with cursor := w.2 } }
  else none

/-- `Base::remove` -/
def removeBase (s : ReplicationDB) (c : Nat) (next : Option Key) : Option ReplicationDB :=
  (s.cursors c).bind fun cur =>
    (cur.cursor.remove (s.page cur.txn).root next).map fun w =>
      (s.setPage cur.txn { s.page cur.txn with root := w.1 }).setCursor c { cur with cursor := w.2 }

/-- The rest of `remove(info)`, the transaction has been started. The cursor comes to rest at
`next`, one that is not valid throws. -/
def remove (s : ReplicationDB) (c : Nat) (cur : ReplicationCursor) (now : UInt64)
    (info : List UInt8) (next : Option Key) : Option ReplicationDB :=
  if cur.cursor.isValid (s.page cur.txn).root then
    (s.insertTombstone c cur ⟨cur.cursor.currentKey, now, info⟩).bind fun s => s.removeBase c next
  else some s

/-- `clone` copies the transaction into a new page, which is for the next one. -/
def commit (s : ReplicationDB) (c : Nat) : ReplicationDB :=
  match s.activeTxn with
  | some p =>
    if s.txnCursorId = some c then
      { s.setPage s.pageCount (s.page p) with
        pageCount := s.pageCount + 1, nextTxnPage := some s.pageCount, readTxn := p,
        activeTxn := none, txnCursorId := none }
    else s
  | none => s

/-- The page of the transaction is for the next one, with what has been committed. -/
def rollback (s : ReplicationDB) (c : Nat) : ReplicationDB :=
  match s.activeTxn, s.cursors c with
  | some p, some cur =>
    if s.txnCursorId = some c then
      let s' := { (s.setPage p (s.page s.readTxn)).setCursor c
          { cur with txn := s.readTxn, cursor := cur.cursor.refind (s.page s.readTxn).root } with
        nextTxnPage := some p, activeTxn := none, txnCursorId := none }
      s'.changed p
    else s
  | _, _ => s

def destroyCursor (s : ReplicationDB) (c : Nat) : ReplicationDB :=
  { s.rollback c with cursors := Function.update (s.rollback c).cursors c none }

end ReplicationDB

inductive ReplicationEvent where
  | createCursor
  | destroyCursor (c : Nat)
  | update (c : Nat)
  | startTransaction (c : Nat)
  | find (c : Nat) (key : Key)
  | value (c : Nat) (v : Value)
  | remove (c : Nat) (now : UInt64) (info : List UInt8) (next : Option Key)
  | getDeletionCursor (c : Nat)
  | commit (c : Nat)
  | rollback (c : Nat)

namespace ReplicationDB

/-- A cursor with the transaction it writes in. -/
def writing (s : ReplicationDB) (c : Nat) : Option (ReplicationDB × ReplicationCursor) :=
  (s.startTransaction c).bind fun s => (s.cursors c).map fun cur => (s, cur)

def step (s : ReplicationDB) : ReplicationEvent → Option ReplicationDB
  | .createCursor => some s.createCursor
  | .destroyCursor c => some (s.destroyCursor c)
  | .update c => (s.cursors c).map fun cur => s.update c cur
  | .startTransaction c => s.startTransaction c
  | .find c key => (s.cursors c).map fun cur => s.find c cur key
  | .value c v => (s.writing c).bind fun w => w.1.value c w.2 v
  | .remove c now info next => (s.writing c).bind fun w => w.1.remove c w.2 now info next
  | .getDeletionCursor c => (s.cursors c).map fun cur => s.getDeletionCursor c cur
  | .commit c => some (s.commit c)
  | .rollback c => some (s.rollback c)

end ReplicationDB

/-- A run beside the removals that have been committed, and with the ones of the open transaction.
-/
structure DeletionTrace where
  db : ReplicationDB
  committed : List Removal
  removals : List Removal

namespace DeletionTrace

/-- The latest removal of a key. -/
def latest (rs : List Removal) (k : Key) : Option Removal := rs.reverse.find? fun r => r.key = k

/-- The tombstones of the latest removals. -/
def tombstones (rs : List Removal) : List (Key × Value) :=
  rs.foldl (fun es r => insert es r.key r.tombstone) []

theorem tombstones_concat (rs : List Removal) (r : Removal) :
    tombstones (rs ++ [r]) = insert (tombstones rs) r.key r.tombstone := by
  rw [tombstones, List.foldl_append]
  rfl

theorem lookup_tombstones (rs : List Removal) (k : Key) :
    lookup (tombstones rs) k = (latest rs k).map Removal.tombstone := by
  induction rs using List.reverseRecOn with
  | nil => rfl
  | append_singleton rs r ih =>
    rw [tombstones_concat, lookup_insert, ih, latest, latest, List.reverse_append,
      List.reverse_singleton, List.singleton_append, List.find?_cons]
    by_cases hk : r.key = k
    . simp [hk]
    . simp [hk, Ne.symm hk]

def create : DeletionTrace := ⟨.create, [], []⟩

/-- What `remove` takes from the main trie. -/
def removed (s : ReplicationDB) (c : Nat) (now : UInt64) (info : List UInt8) : List Removal :=
  match s.writing c with
  | none => []
  | some (s, cur) =>
    if cur.cursor.isValid (s.page cur.txn).root then
      cur.cursor.target.toList.map fun k => ⟨k, now, info⟩
    else []

def next (t : DeletionTrace) (db : ReplicationDB) : ReplicationEvent → DeletionTrace
  | .remove c now info _ => ⟨db, t.committed, t.removals ++ removed t.db c now info⟩
  | .commit c => ⟨db, if t.db.txnCursorId = some c then t.removals else t.committed, t.removals⟩
  | .rollback c | .destroyCursor c =>
    ⟨db, t.committed, if t.db.txnCursorId = some c then t.committed else t.removals⟩
  | _ => ⟨db, t.committed, t.removals⟩

def step (t : DeletionTrace) (e : ReplicationEvent) : Option DeletionTrace :=
  (t.db.step e).map fun db => t.next db e

def run (t : DeletionTrace) : List ReplicationEvent → Option DeletionTrace
  | [] => some t
  | e :: es => (t.step e).bind fun t => run t es

/-- `_set_txn` searches again, unless the key is empty. -/
def MoveOk (s : ReplicationDB) (cur : ReplicationCursor) : Prop :=
  cur.cursor.target = none ∨ cur.cursor.key ≠ [] ∨
    (s.page cur.txn).root = (s.page s.readTxn).root

/-- The deletion cursor is a new one, or it has been created in this transaction. -/
def DeletionOk (cur : ReplicationCursor) : Prop :=
  (ReplicationDB.deletionCursor cur).page = cur.txn ∧
    (ReplicationDB.deletionCursor cur).inSync = true

/-- The transaction at hand is followed, or started. -/
def StartOk (s : ReplicationDB) (c : Nat) : Prop :=
  s.txnCursorId = none → (s.cursors c).elim True fun cur => MoveOk s cur

/-- A removal finds a deletion cursor of its transaction, and a cursor the key it searches for. -/
def StepOk (s : ReplicationDB) : ReplicationEvent → Prop
  | .update c => (s.cursors c).elim True fun cur =>
      (s.page cur.txn).txnId < (s.page s.readTxn).txnId → MoveOk s cur
  | .startTransaction c => StartOk s c
  | .find c key => (s.cursors c).elim True fun cur => cur.cursor.FindOk key
  | .value c _ => StartOk s c ∧ (s.writing c).elim True fun w =>
      (w.1.page w.2.txn).root = [] → w.2.cursor.currentKey = []
  | .remove c now info _ => StartOk s c ∧ (s.writing c).elim True fun w =>
      w.2.cursor.isValid (w.1.page w.2.txn).root = true →
        DeletionOk w.2 ∧ (Removal.mk w.2.cursor.currentKey now info).fits = true
  | _ => True

/-- Every step of a run meets the condition in the state it finds. -/
def RunOk (t : DeletionTrace) : List ReplicationEvent → Prop
  | [] => True
  | e :: es => StepOk t.db e ∧ ((t.step e).elim True fun t' => RunOk t' es)

section Decidable

variable (s : ReplicationDB) (c : Nat)

instance (cur : ReplicationCursor) : Decidable (MoveOk s cur) :=
  inferInstanceAs (Decidable (_ ∨ _))

instance (cur : ReplicationCursor) : Decidable (DeletionOk cur) :=
  inferInstanceAs (Decidable (_ ∧ _))

instance : Decidable (StartOk s c) := inferInstanceAs (Decidable (_ → _))

instance (e : ReplicationEvent) : Decidable (StepOk s e) :=
  match e with
  | .update _ => inferInstanceAs (Decidable (Option.elim _ True fun _ => _ → _))
  | .startTransaction _ => inferInstanceAs (Decidable (StartOk _ _))
  | .find _ _ => inferInstanceAs (Decidable (Option.elim _ True fun _ => _))
  | .value _ _ => inferInstanceAs (Decidable (_ ∧ Option.elim _ True fun _ => _ → _))
  | .remove _ _ _ _ => inferInstanceAs (Decidable (_ ∧ Option.elim _ True fun _ => _ → _ ∧ _))
  | .createCursor | .destroyCursor _ | .getDeletionCursor _ | .commit _ | .rollback _ =>
    inferInstanceAs (Decidable True)

instance runOkDecidable :
    (t : DeletionTrace) → (es : List ReplicationEvent) → Decidable (t.RunOk es)
  | _, [] => inferInstanceAs (Decidable True)
  | _, _ :: es =>
    have := fun t' => runOkDecidable t' es
    inferInstanceAs (Decidable (_ ∧ Option.elim _ True fun _ => _))

end Decidable

/-- An empty stack, or one that leads to a tombstone. -/
def Ready (es : List (Key × Value)) (d : DeletionCursor) : Prop :=
  d.inSync = true → d.cursor = .init ∨ es ≠ [] ∧ ∃ k, d.cursor = ⟨some k, k, []⟩

/-- What is true of a cursor. -/
structure CursorInv (s : ReplicationDB) (c : Nat) (cur : ReplicationCursor) : Prop where
  id : c < s.cursorCount
  txn : cur.txn < s.pageCount
  sound : cur.cursor.Sound (s.page cur.txn).root
  short : cur.cursor.Short
  active : s.activeTxn = some cur.txn → s.txnCursorId = some c
  next : s.nextTxnPage ≠ some cur.txn
  deletion : ∀ d, cur.deletion = some d →
    d.page < s.pageCount ∧ Ready (s.page d.page).deletionRoot d

/-- No transaction is open. -/
structure Idle (t : DeletionTrace) (n : Nat) : Prop where
  activeTxn : t.db.activeTxn = none
  txnCursorId : t.db.txnCursorId = none
  nextTxnPage : t.db.nextTxnPage = some n
  removals : t.removals = t.committed
  lt : n < t.db.pageCount
  ne : n ≠ t.db.readTxn
  root : (t.db.page n).root = (t.db.page t.db.readTxn).root
  deletionRoot : (t.db.page n).deletionRoot = (t.db.page t.db.readTxn).deletionRoot

/-- The cursor `c` writes to its page. -/
structure Open (t : DeletionTrace) (c : Nat) (cur : ReplicationCursor) : Prop where
  activeTxn : t.db.activeTxn = some cur.txn
  txnCursorId : t.db.txnCursorId = some c
  nextTxnPage : t.db.nextTxnPage = none
  cursor : t.db.cursors c = some cur
  txnId : (t.db.page t.db.readTxn).txnId < (t.db.page cur.txn).txnId
  ne : cur.txn ≠ t.db.readTxn
  deletionRoot : (t.db.page cur.txn).deletionRoot = tombstones t.removals

structure Inv (t : DeletionTrace) : Prop where
  read : t.db.readTxn < t.db.pageCount
  committed : (t.db.page t.db.readTxn).deletionRoot = tombstones t.committed
  short : ∀ p, MapCursor.ShortKeys (t.db.page p).root
  state : (∃ n, Idle t n) ∨ ∃ c cur, Open t c cur
  cursor : ∀ c cur, t.db.cursors c = some cur → CursorInv t.db c cur

/-- A committed transaction, the snapshot of a cursor that does not write. -/
def Committed (s : ReplicationDB) (p : Nat) : Prop :=
  p < s.pageCount ∧ s.activeTxn ≠ some p ∧ s.nextTxnPage ≠ some p

/-- The deletion tries of the committed transactions stay as they are. -/
def Keeps (s s' : ReplicationDB) : Prop :=
  ∀ p, Committed s p → Committed s' p ∧ (s'.page p).deletionRoot = (s.page p).deletionRoot

theorem Keeps.refl (s : ReplicationDB) : Keeps s s := fun _ h => ⟨h, rfl⟩

theorem Keeps.trans {s s' s'' : ReplicationDB} (h : Keeps s s') (h' : Keeps s' s'') :
    Keeps s s'' := by
  intro p hp
  obtain ⟨hp', heq⟩ := h p hp
  obtain ⟨hp'', heq'⟩ := h' p hp'
  exact ⟨hp'', heq'.trans heq⟩

theorem ready_init (es : List (Key × Value)) (p : Nat) : Ready es ⟨p, .init, true⟩ :=
  fun _ => Or.inl rfl

/-- A trie is changed under the stacks of the deletion cursors. -/
theorem Ready.changed {es es' : List (Key × Value)} {d : DeletionCursor} {p : Nat}
    (h : Ready es d) (hes : d.page ≠ p → es' = es) : Ready es' (d.changed p) := by
  unfold DeletionCursor.changed
  split
  . intro hsync
    rw [Bool.and_eq_true] at hsync
    rcases h hsync.1 with hinit | ⟨-, k, hk⟩
    . exact Or.inl hinit
    . rw [hk] at hsync
      cases hsync.2
  next hne =>
    rw [hes hne]
    exact h

theorem inv_create : create.Inv where
  read := by decide
  committed := rfl
  short := by
    rintro p e ⟨⟩
  state := Or.inl ⟨1, rfl, rfl, rfl, rfl, by decide, by decide, rfl, rfl⟩
  cursor := by
    rintro c cur ⟨⟩

section Steps

variable {t : DeletionTrace} (h : t.Inv)

include h

/-- Only the cursor of the transaction is on its page. -/
theorem Inv.owner {c c' : Nat} {cur x : ReplicationCursor} (hopen : Open t c cur)
    (hx : t.db.cursors c' = some x) (htxn : x.txn = cur.txn) : c' = c := by
  have hactive := (h.cursor c' x hx).active
  rw [htxn, hopen.activeTxn, hopen.txnCursorId] at hactive
  exact (Option.some.inj (hactive rfl)).symm

omit h in
theorem Open.cursor_eq {c c' : Nat} {cur x : ReplicationCursor} (hopen : Open t c cur)
    (hx : t.db.cursors c' = some x) (heq : c' = c) : x = cur := by
  rw [heq, hopen.cursor] at hx
  exact (Option.some.inj hx).symm

omit h in
/-- What a cursor relies on. -/
theorem CursorInv.of_same {s s' : ReplicationDB} {c : Nat} {cur : ReplicationCursor}
    (hcur : CursorInv s c cur) (hid : s.cursorCount ≤ s'.cursorCount)
    (hcount : s.pageCount ≤ s'.pageCount)
    (hroot : (s'.page cur.txn).root = (s.page cur.txn).root)
    (hactive : s'.activeTxn = some cur.txn → s'.txnCursorId = some c)
    (hnext : s'.nextTxnPage ≠ some cur.txn)
    (hdel : ∀ p, p < s.pageCount → (s'.page p).deletionRoot = (s.page p).deletionRoot) :
    CursorInv s' c cur := by
  constructor
  . have := hcur.id
    omega
  . have := hcur.txn
    omega
  . rw [hroot]
    exact hcur.sound
  . exact hcur.short
  . exact hactive
  . exact hnext
  . intro d hd
    obtain ⟨hlt, hready⟩ := hcur.deletion d hd
    rw [hdel d.page hlt]
    exact ⟨Nat.lt_of_lt_of_le hlt hcount, hready⟩

/-- A cursor is changed, and what else there is stays. -/
theorem Inv.setCursor {c : Nat} {cur cur' : ReplicationCursor} (hc : t.db.cursors c = some cur)
    (hcur' : CursorInv t.db c cur') (htxn : t.db.activeTxn = some cur.txn → cur'.txn = cur.txn) :
    Inv ⟨t.db.setCursor c cur', t.committed, t.removals⟩ := by
  refine ⟨h.read, h.committed, h.short, ?_, ?_⟩
  . rcases h.state with ⟨n, hidle⟩ | ⟨c', own, hopen⟩
    . exact Or.inl ⟨n, hidle.activeTxn, hidle.txnCursorId, hidle.nextTxnPage, hidle.removals,
        hidle.lt, hidle.ne, hidle.root, hidle.deletionRoot⟩
    . right
      by_cases heq : c = c'
      . have hown := hopen.cursor_eq hc heq
        have hsame : cur'.txn = own.txn := by
          rw [htxn (hown ▸ hopen.activeTxn), hown]
        refine ⟨c, cur', ?_⟩
        constructor
        . rw [hsame]
          exact hopen.activeTxn
        . rw [heq]
          exact hopen.txnCursorId
        . exact hopen.nextTxnPage
        . simp [ReplicationDB.setCursor]
        . rw [hsame]
          exact hopen.txnId
        . rw [hsame]
          exact hopen.ne
        . rw [hsame]
          exact hopen.deletionRoot
      . refine ⟨c', own, hopen.activeTxn, hopen.txnCursorId, hopen.nextTxnPage, ?_, hopen.txnId,
          hopen.ne, hopen.deletionRoot⟩
        simp [ReplicationDB.setCursor, Ne.symm heq, hopen.cursor]
  . intro c' x hx
    simp only [ReplicationDB.setCursor, Function.update_apply] at hx
    split at hx
    next heq =>
      rw [heq, ← Option.some.inj hx]
      exact ⟨hcur'.id, hcur'.txn, hcur'.sound, hcur'.short, hcur'.active, hcur'.next,
        hcur'.deletion⟩
    . have hx' := h.cursor c' x hx
      exact ⟨hx'.id, hx'.txn, hx'.sound, hx'.short, hx'.active, hx'.next, hx'.deletion⟩

omit h in
theorem keeps_setCursor (s : ReplicationDB) (c : Nat) (cur : ReplicationCursor) :
    Keeps s (s.setCursor c cur) :=
  fun _ hp => ⟨hp, rfl⟩

theorem Inv.find {c : Nat} {cur : ReplicationCursor} (hc : t.db.cursors c = some cur) {key : Key}
    (hok : cur.cursor.FindOk key) :
    Inv ⟨t.db.find c cur key, t.committed, t.removals⟩ := by
  have hcur := h.cursor c cur hc
  refine h.setCursor hc ?_ fun _ => ?_
  . exact ⟨hcur.id, hcur.txn, hcur.sound.find hok, hcur.short.find key, hcur.active, hcur.next,
      hcur.deletion⟩
  . rfl

theorem Inv.deletionCursor {c : Nat} {cur : ReplicationCursor} (hc : t.db.cursors c = some cur) :
    (ReplicationDB.deletionCursor cur).page < t.db.pageCount ∧
      Ready (t.db.page (ReplicationDB.deletionCursor cur).page).deletionRoot
        (ReplicationDB.deletionCursor cur) := by
  have hcur := h.cursor c cur hc
  unfold ReplicationDB.deletionCursor
  cases hd : cur.deletion with
  | none => exact ⟨hcur.txn, ready_init _ _⟩
  | some d => exact hcur.deletion d hd

theorem Inv.getDeletionCursor {c : Nat} {cur : ReplicationCursor}
    (hc : t.db.cursors c = some cur) :
    Inv ⟨t.db.getDeletionCursor c cur, t.committed, t.removals⟩ := by
  have hcur := h.cursor c cur hc
  refine h.setCursor hc ?_ fun _ => ?_
  . refine ⟨hcur.id, hcur.txn, hcur.sound, hcur.short, hcur.active, hcur.next, ?_⟩
    rintro d ⟨rfl⟩
    exact h.deletionCursor hc
  . rfl

theorem Inv.createCursor : Inv ⟨t.db.createCursor, t.committed, t.removals⟩ := by
  refine ⟨h.read, h.committed, h.short, ?_, ?_⟩
  . rcases h.state with ⟨n, hidle⟩ | ⟨c', own, hopen⟩
    . exact Or.inl ⟨n, hidle.activeTxn, hidle.txnCursorId, hidle.nextTxnPage, hidle.removals,
        hidle.lt, hidle.ne, hidle.root, hidle.deletionRoot⟩
    . refine Or.inr ⟨c', own, hopen.activeTxn, hopen.txnCursorId, hopen.nextTxnPage, ?_,
        hopen.txnId, hopen.ne, hopen.deletionRoot⟩
      have hid := (h.cursor c' own hopen.cursor).id
      have hne : c' ≠ t.db.cursorCount := by omega
      simp [ReplicationDB.createCursor, ReplicationDB.setCursor, hne, hopen.cursor]
  . intro c' x hx
    simp only [ReplicationDB.createCursor, ReplicationDB.setCursor, Function.update_apply] at hx
    split at hx
    next heq =>
      rw [heq, ← Option.some.inj hx]
      constructor
      . exact Nat.lt_succ_self _
      . exact h.read
      . exact MapCursor.sound_init _
      . exact MapCursor.short_init
      . intro hactive
        rcases h.state with ⟨n, hidle⟩ | ⟨c', own, hopen⟩
        . have hnone : t.db.activeTxn = some t.db.readTxn := hactive
          rw [hidle.activeTxn] at hnone
          cases hnone
        . have hread : t.db.activeTxn = some t.db.readTxn := hactive
          rw [hopen.activeTxn, Option.some.injEq] at hread
          exact absurd hread hopen.ne
      . intro hnext
        have hread : t.db.nextTxnPage = some t.db.readTxn := hnext
        rcases h.state with ⟨n, hidle⟩ | ⟨c', own, hopen⟩
        . rw [hidle.nextTxnPage, Option.some.injEq] at hread
          exact absurd hread hidle.ne
        . rw [hopen.nextTxnPage] at hread
          cases hread
      . rintro d ⟨⟩
    . have hx' := h.cursor c' x hx
      exact ⟨Nat.lt_succ_of_lt hx'.id, hx'.txn, hx'.sound, hx'.short, hx'.active, hx'.next,
        hx'.deletion⟩

omit h in
/-- The search of `_set_txn` in another trie. -/
theorem sound_moved {old root : List (Key × Value)} {c : MapCursor} (hsound : c.Sound old)
    (hshort : c.Short) (hok : c.target = none ∨ c.key ≠ [] ∨ old = root) :
    (if c.key ≠ [] ∧ old ≠ root then MapCursor.find root { c with target := none } c.key
      else c).Sound root ∧
    (if c.key ≠ [] ∧ old ≠ root then MapCursor.find root { c with target := none } c.key
      else c).Short := by
  have hoff : MapCursor.Sound root { c with target := none } :=
    ⟨fun _ => rfl, by simp, by simp [MapCursor.isValid]⟩
  split
  . refine ⟨hoff.find (Or.inl rfl), MapCursor.Short.find ?_ c.key⟩
    exact ⟨by simp, hshort.restKey⟩
  next hkeep =>
    refine ⟨?_, hshort⟩
    by_cases hsame : old = root
    . rw [← hsame]
      exact hsound
    . have htarget : c.target = none := by
        rcases hok with hok | hok | hok
        . exact hok
        . exact absurd ⟨hok, hsame⟩ hkeep
        . exact absurd hok hsame
      have hself : { c with target := none } = c := by rw [← htarget]
      rw [← hself]
      exact hoff

theorem Inv.update {c : Nat} {cur : ReplicationCursor} (hc : t.db.cursors c = some cur)
    (hok : (t.db.page cur.txn).txnId < (t.db.page t.db.readTxn).txnId → MoveOk t.db cur) :
    Inv ⟨t.db.update c cur, t.committed, t.removals⟩ ∧ Keeps t.db (t.db.update c cur) := by
  have hcur := h.cursor c cur hc
  unfold ReplicationDB.update
  split
  . exact ⟨h, Keeps.refl _⟩
  . split
    next hold =>
      refine ⟨?_, keeps_setCursor _ _ _⟩
      obtain ⟨hsound, hshort⟩ := sound_moved hcur.sound hcur.short (hok hold)
      refine h.setCursor hc ?_ ?_
      . constructor
        . exact hcur.id
        . exact h.read
        . exact hsound
        . exact hshort
        . intro hactive
          rcases h.state with ⟨n, hidle⟩ | ⟨c', own, hopen⟩
          . rw [hidle.activeTxn] at hactive
            cases hactive
          . rw [hopen.activeTxn, Option.some.injEq] at hactive
            exact absurd hactive hopen.ne
        . intro hnext
          rcases h.state with ⟨n, hidle⟩ | ⟨c', own, hopen⟩
          . rw [hidle.nextTxnPage, Option.some.injEq] at hnext
            exact absurd hnext hidle.ne
          . rw [hopen.nextTxnPage] at hnext
            cases hnext
        . exact hcur.deletion
      . intro hactive
        -- the transaction of the cursor is newer than the committed one
        rcases h.state with ⟨n, hidle⟩ | ⟨c', own, hopen⟩
        . rw [hidle.activeTxn] at hactive
          cases hactive
        . rw [hopen.activeTxn, Option.some.injEq] at hactive
          have := hopen.txnId
          rw [hactive] at this
          omega
    . exact ⟨h, Keeps.refl _⟩

/-- A transaction that has been started, or goes on. -/
theorem Inv.startTransaction {c : Nat} {s : ReplicationDB} (hs : t.db.startTransaction c = some s)
    (hok : StartOk t.db c) :
    Inv ⟨s, t.committed, t.removals⟩ ∧ Keeps t.db s ∧
      ∃ cur, Open ⟨s, t.committed, t.removals⟩ c cur := by
  unfold ReplicationDB.startTransaction at hs
  split at hs
  next cur p hc hid hnext =>
    rw [StartOk, hc] at hok
    have hmove : MoveOk t.db cur := hok hid
    have hcur := h.cursor c cur hc
    obtain ⟨n, hidle⟩ : ∃ n, Idle t n := by
      rcases h.state with hidle | ⟨c', own, hopen⟩
      . exact hidle
      . rw [hopen.txnCursorId] at hid
        cases hid
    have hp : n = p := by
      rw [hidle.nextTxnPage, Option.some.injEq] at hnext
      exact hnext
    rw [hp] at hidle
    have htxn : cur.txn ≠ p := fun heq => hcur.next (heq ▸ hidle.nextTxnPage)
    rw [Option.some.injEq] at hs
    have hpage : ∀ q, (s.page q).root = (t.db.page q).root ∧
        (s.page q).deletionRoot = (t.db.page q).deletionRoot := by
      intro q
      rw [← hs]
      simp only [ReplicationDB.setTxn, ReplicationDB.setCursor, ReplicationDB.setPage,
        Function.update_apply]
      by_cases hq : q = p
      . rw [if_pos hq, hq]
        exact ⟨rfl, rfl⟩
      . rw [if_neg hq]
        exact ⟨rfl, rfl⟩
    have hread : s.readTxn = t.db.readTxn := by rw [← hs]; rfl
    have hcount : s.pageCount = t.db.pageCount := by rw [← hs]; rfl
    have hactive : s.activeTxn = some p := by rw [← hs]; rfl
    have hnone : s.nextTxnPage = none := by rw [← hs]; rfl
    have howner : s.txnCursorId = some c := by rw [← hs]; rfl
    have hcursorCount : s.cursorCount = t.db.cursorCount := by rw [← hs]; rfl
    have hlt : (s.page s.readTxn).txnId < (s.page p).txnId := by
      rw [← hs]
      simp only [ReplicationDB.setTxn, ReplicationDB.setCursor, ReplicationDB.setPage,
        Function.update_apply, ↓reduceIte]
      rw [if_neg (Ne.symm hidle.ne)]
      exact Nat.lt_succ_self _
    obtain ⟨cur', hcur', htxn', hdel', hsound', hshort'⟩ : ∃ cur', s.cursors c = some cur' ∧
        cur'.txn = p ∧ cur'.deletion = cur.deletion ∧
          cur'.cursor.Sound (t.db.page p).root ∧ cur'.cursor.Short := by
      have hmove' : cur.cursor.target = none ∨ cur.cursor.key ≠ [] ∨
          (t.db.page cur.txn).root = (t.db.page p).root := by
        rw [hidle.root]
        exact hmove
      obtain ⟨hsound, hshort⟩ := sound_moved hcur.sound hcur.short hmove'
      rw [← hs]
      simp only [ReplicationDB.setTxn, ReplicationDB.setCursor, ReplicationDB.setPage,
        Function.update_apply, ↓reduceIte, if_neg htxn]
      exact ⟨_, rfl, rfl, rfl, hsound, hshort⟩
    have hother : ∀ c', c' ≠ c → s.cursors c' = t.db.cursors c' := by
      intro c' hne
      rw [← hs]
      simp [ReplicationDB.setTxn, ReplicationDB.setCursor, ReplicationDB.setPage, hne]
    have hopen : Open ⟨s, t.committed, t.removals⟩ c cur' := by
      constructor
      . rw [htxn']
        exact hactive
      . exact howner
      . exact hnone
      . exact hcur'
      . rw [htxn']
        exact hlt
      . rw [htxn']
        change p ≠ s.readTxn
        rw [hread]
        exact hidle.ne
      . rw [htxn', (hpage p).2, hidle.deletionRoot, h.committed, hidle.removals]
    refine ⟨⟨?_, ?_, ?_, Or.inr ⟨c, cur', hopen⟩, ?_⟩, ?_, cur', hopen⟩
    . change s.readTxn < s.pageCount
      rw [hread, hcount]
      exact h.read
    . change (s.page s.readTxn).deletionRoot = _
      rw [hread, (hpage _).2, h.committed]
    . intro q
      change MapCursor.ShortKeys (s.page q).root
      rw [(hpage q).1]
      exact h.short q
    . intro c' x hx
      have hx' : s.cursors c' = some x := hx
      by_cases heq : c' = c
      . rw [heq, hcur', Option.some.injEq] at hx'
        rw [heq, ← hx']
        constructor
        . change c < s.cursorCount
          rw [hcursorCount]
          exact hcur.id
        . change cur'.txn < s.pageCount
          rw [htxn', hcount]
          exact hidle.lt
        . rw [htxn', (hpage p).1]
          exact hsound'
        . exact hshort'
        . exact fun _ => howner
        . change s.nextTxnPage ≠ _
          rw [hnone]
          simp
        . intro d hd
          rw [hdel'] at hd
          obtain ⟨hdlt, hready⟩ := hcur.deletion d hd
          change d.page < s.pageCount ∧ Ready (s.page d.page).deletionRoot d
          rw [hcount, (hpage _).2]
          exact ⟨hdlt, hready⟩
      . rw [hother c' heq] at hx'
        have hxi := h.cursor c' x hx'
        apply hxi.of_same
        . exact Nat.le_of_eq hcursorCount.symm
        . exact Nat.le_of_eq hcount.symm
        . exact (hpage _).1
        . intro hact
          have hact' : s.activeTxn = some x.txn := hact
          rw [hactive, ← hidle.nextTxnPage] at hact'
          exact absurd hact' hxi.next
        . change s.nextTxnPage ≠ _
          rw [hnone]
          simp
        . exact fun q _ => (hpage q).2
    . intro q hq
      refine ⟨⟨?_, ?_, ?_⟩, (hpage q).2⟩
      . rw [hcount]
        exact hq.1
      . rw [hactive, ← hidle.nextTxnPage]
        exact hq.2.2
      . rw [hnone]
        simp
  next cur id _ hid =>
    split at hs
    next heq =>
      rw [← Option.some.inj hs]
      refine ⟨h, Keeps.refl _, ?_⟩
      rcases h.state with ⟨n, hidle⟩ | ⟨c', own, hopen⟩
      . rw [hidle.txnCursorId] at hid
        cases hid
      . have hc' : c' = c := by
          have := hopen.txnCursorId.symm.trans hid
          rw [Option.some.injEq] at this
          exact this.trans heq
        rw [← hc']
        exact ⟨own, hopen⟩
    . cases hs
  . cases hs

/-- The cursor of the transaction writes to the main trie. -/
theorem Inv.writeRoot {c : Nat} {cur : ReplicationCursor} (hopen : Open t c cur)
    {r : List (Key × Value) × MapCursor} (hshort : MapCursor.ShortKeys r.1)
    (hsound : r.2.Sound r.1) (hcursor : r.2.Short) :
    let s := (t.db.setPage cur.txn { t.db.page cur.txn with root := r.1 }).setCursor c
      { cur with cursor := r.2 }
    Inv ⟨s, t.committed, t.removals⟩ ∧ Keeps t.db s := by
  intro s
  have hcur := h.cursor c cur hopen.cursor
  have hdel : ∀ p, (s.page p).deletionRoot = (t.db.page p).deletionRoot := by
    intro p
    simp only [s, ReplicationDB.setCursor, ReplicationDB.setPage, Function.update_apply]
    by_cases hp : p = cur.txn
    . rw [if_pos hp, hp]
    . rw [if_neg hp]
  have hid : ∀ p, (s.page p).txnId = (t.db.page p).txnId := by
    intro p
    simp only [s, ReplicationDB.setCursor, ReplicationDB.setPage, Function.update_apply]
    by_cases hp : p = cur.txn
    . rw [if_pos hp, hp]
    . rw [if_neg hp]
  have hroot : ∀ p, (s.page p).root = if p = cur.txn then r.1 else (t.db.page p).root := by
    intro p
    simp only [s, ReplicationDB.setCursor, ReplicationDB.setPage, Function.update_apply]
    by_cases hp : p = cur.txn
    . rw [if_pos hp, if_pos hp]
    . rw [if_neg hp, if_neg hp]
  refine ⟨⟨h.read, ?_, ?_, ?_, ?_⟩, fun p hp => ⟨hp, hdel p⟩⟩
  . exact (hdel _).trans h.committed
  . intro p
    change MapCursor.ShortKeys (s.page p).root
    rw [hroot p]
    split
    . exact hshort
    . exact h.short p
  . refine Or.inr ⟨c, { cur with cursor := r.2 }, ?_⟩
    constructor
    . exact hopen.activeTxn
    . exact hopen.txnCursorId
    . exact hopen.nextTxnPage
    . simp [s, ReplicationDB.setCursor]
    . change (s.page t.db.readTxn).txnId < (s.page cur.txn).txnId
      rw [hid, hid]
      exact hopen.txnId
    . exact hopen.ne
    . exact (hdel _).trans hopen.deletionRoot
  . intro c' x hx
    simp only [s, ReplicationDB.setCursor, ReplicationDB.setPage, Function.update_apply] at hx
    split at hx
    next heq =>
      rw [heq, ← Option.some.inj hx]
      constructor
      . exact hcur.id
      . exact hcur.txn
      . change r.2.Sound (s.page cur.txn).root
        rw [hroot, if_pos rfl]
        exact hsound
      . exact hcursor
      . exact hcur.active
      . exact hcur.next
      . intro d hd
        change d.page < _ ∧ Ready (s.page d.page).deletionRoot d
        rw [hdel]
        exact hcur.deletion d hd
    next hne =>
      have hxi := h.cursor c' x hx
      refine hxi.of_same (Nat.le_refl _) (Nat.le_refl _) ?_ ?_ ?_ ?_
      . change (s.page x.txn).root = _
        rw [hroot, if_neg]
        exact fun htxn => hne (h.owner hopen hx htxn)
      . exact hxi.active
      . exact hxi.next
      . exact fun p _ => hdel p

/-- The deletion cursor of the transaction writes the tombstone. -/
theorem Inv.insertTombstone {c : Nat} {cur : ReplicationCursor} (hopen : Open t c cur)
    {r : Removal} (hlen : r.key.length ≤ MAX_KEY_SIZE) (hok : DeletionOk cur) {s : ReplicationDB}
    (hs : t.db.insertTombstone c cur r = some s) :
    Inv ⟨s, t.committed, t.removals ++ [r]⟩ ∧ Keeps t.db s ∧
      (∃ d, Open ⟨s, t.committed, t.removals ++ [r]⟩ c { cur with deletion := some d }) ∧
        (s.page cur.txn).root = (t.db.page cur.txn).root := by
  have hcur := h.cursor c cur hopen.cursor
  obtain ⟨hpage, hsync⟩ := hok
  obtain ⟨hlt, hready⟩ := h.deletionCursor hopen.cursor
  unfold ReplicationDB.insertTombstone at hs
  simp only at hs
  split at hs
  next hfits =>
    generalize ReplicationDB.deletionCursor cur = d at hs hpage hsync hlt hready
    have hwrite : (d.cursor.find (t.db.page d.page).deletionRoot r.key).value
        (t.db.page d.page).deletionRoot r.tombstone =
          some (insert (t.db.page d.page).deletionRoot r.key r.tombstone,
            ⟨some r.key, r.key, []⟩) := by
      rcases hready hsync with hinit | ⟨hne, k, hk⟩
      . rw [hinit]
        exact (MapCursor.sound_init _).find_value hlen (Or.inl rfl) (fun _ => rfl) _
      . rw [hk]
        exact (MapCursor.sound_at hne).find_value hlen (Or.inr (Or.inr rfl))
          (fun hnil => absurd hnil hne) _
    rw [hwrite, Option.map_some, hpage, hopen.deletionRoot, ← tombstones_concat,
      Option.some.injEq] at hs
    have hread : s.readTxn = t.db.readTxn := by rw [← hs]; rfl
    have hdel : ∀ p, (s.page p).deletionRoot =
        if p = cur.txn then tombstones (t.removals ++ [r]) else (t.db.page p).deletionRoot := by
      intro p
      rw [← hs]
      simp only [ReplicationDB.setCursor, ReplicationDB.changed, ReplicationDB.setPage,
        Function.update_apply]
      by_cases hp : p = cur.txn
      . rw [if_pos hp, if_pos hp]
      . rw [if_neg hp, if_neg hp]
    have hsame : ∀ p, (s.page p).root = (t.db.page p).root ∧
        (s.page p).txnId = (t.db.page p).txnId := by
      intro p
      rw [← hs]
      simp only [ReplicationDB.setCursor, ReplicationDB.changed, ReplicationDB.setPage,
        Function.update_apply]
      by_cases hp : p = cur.txn
      . rw [if_pos hp, hp]
        exact ⟨rfl, rfl⟩
      . rw [if_neg hp]
        exact ⟨rfl, rfl⟩
    have hinsert : tombstones (t.removals ++ [r]) ≠ [] := by
      rw [tombstones_concat]
      simp [OrdMap.insert]
    have hc : s.cursors c =
        some { cur with deletion := some { d with cursor := ⟨some r.key, r.key, []⟩ } } := by
      rw [← hs]
      simp [ReplicationDB.setCursor, hpage]
    have hopen' : Open ⟨s, t.committed, t.removals ++ [r]⟩ c
        { cur with deletion := some { d with cursor := ⟨some r.key, r.key, []⟩ } } := by
      refine ⟨?_, ?_, ?_, hc, ?_, ?_, ?_⟩
      . rw [← hs]
        exact hopen.activeTxn
      . rw [← hs]
        exact hopen.txnCursorId
      . rw [← hs]
        exact hopen.nextTxnPage
      . change (s.page s.readTxn).txnId < (s.page cur.txn).txnId
        rw [hread, (hsame _).2, (hsame _).2]
        exact hopen.txnId
      . change cur.txn ≠ s.readTxn
        rw [hread]
        exact hopen.ne
      . exact (hdel _).trans (if_pos rfl)
    refine ⟨⟨?_, ?_, ?_, Or.inr ⟨c, _, hopen'⟩, ?_⟩, ?_, ⟨_, hopen'⟩, (hsame _).1⟩
    . rw [← hs]
      exact h.read
    . change (s.page s.readTxn).deletionRoot = _
      rw [hread, hdel, if_neg (Ne.symm hopen.ne)]
      exact h.committed
    . intro p
      change MapCursor.ShortKeys (s.page p).root
      rw [(hsame p).1]
      exact h.short p
    . intro c' x hx
      have hx' : s.cursors c' = some x := hx
      by_cases heq : c' = c
      . rw [heq, hc, Option.some.injEq] at hx'
        rw [heq, ← hx', ← hs]
        constructor
        . exact hcur.id
        . exact hcur.txn
        . change cur.cursor.Sound _
          rw [hs, (hsame _).1]
          exact hcur.sound
        . exact hcur.short
        . exact hcur.active
        . exact hcur.next
        . rintro _ ⟨rfl⟩
          refine ⟨hlt, fun _ => Or.inr ⟨?_, _, rfl⟩⟩
          rw [hs, hdel, if_pos hpage]
          exact hinsert
      . obtain ⟨y, hy, rfl⟩ : ∃ y, t.db.cursors c' = some y ∧
            { y with deletion := y.deletion.map (·.changed cur.txn) } = x := by
          rw [← hs] at hx'
          simp only [ReplicationDB.setCursor, ReplicationDB.changed, ReplicationDB.setPage,
            Function.update_apply, if_neg heq, Option.map_eq_some_iff] at hx'
          exact hx'
        have hyi := h.cursor c' y hy
        rw [← hs]
        constructor
        . exact hyi.id
        . exact hyi.txn
        . change y.cursor.Sound _
          rw [hs, (hsame _).1]
          exact hyi.sound
        . exact hyi.short
        . exact hyi.active
        . exact hyi.next
        . intro d' hd'
          rw [Option.map_eq_some_iff] at hd'
          obtain ⟨e, he, rfl⟩ := hd'
          obtain ⟨helt, heready⟩ := hyi.deletion e he
          have hpage' : (e.changed cur.txn).page = e.page := by
            unfold DeletionCursor.changed
            split <;> rfl
          rw [hpage']
          refine ⟨helt, heready.changed ?_⟩
          intro hne
          rw [hs, hdel, if_neg hne]
    . intro p hp
      have hne : p ≠ cur.txn := fun heq => hp.2.1 (heq ▸ hopen.activeTxn)
      refine ⟨?_, ?_⟩
      . rw [← hs]
        exact hp
      . rw [hdel, if_neg hne]
  . cases hs

/-- The transaction and the cursor a write finds. -/
theorem Inv.writing {c : Nat} {w : ReplicationDB × ReplicationCursor}
    (hw : t.db.writing c = some w) (hok : StartOk t.db c) :
    Inv ⟨w.1, t.committed, t.removals⟩ ∧ Keeps t.db w.1 ∧
      Open ⟨w.1, t.committed, t.removals⟩ c w.2 := by
  rw [ReplicationDB.writing, Option.bind_eq_some_iff] at hw
  obtain ⟨s, hs, hw⟩ := hw
  rw [Option.map_eq_some_iff] at hw
  obtain ⟨cur, hc, rfl⟩ := hw
  obtain ⟨hinv, hkeeps, cur', hopen⟩ := h.startTransaction hs hok
  have hcur : cur = cur' := hopen.cursor_eq hc rfl
  rw [hcur]
  exact ⟨hinv, hkeeps, hopen⟩

theorem Inv.value {c : Nat} {cur : ReplicationCursor} (hopen : Open t c cur) {v : Value}
    {s : ReplicationDB} (hs : t.db.value c cur v = some s)
    (hok : (t.db.page cur.txn).root = [] → cur.cursor.currentKey = []) :
    Inv ⟨s, t.committed, t.removals⟩ ∧ Keeps t.db s := by
  have hcur := h.cursor c cur hopen.cursor
  rw [ReplicationDB.value, Option.map_eq_some_iff] at hs
  obtain ⟨r, hr, rfl⟩ := hs
  by_cases hthrows : cur.cursor.target = none ∧ (t.db.page cur.txn).root ≠ []
  . rw [MapCursor.value, hthrows.1] at hr
    simp only [hthrows.2, ne_eq, not_false_eq_true, ↓reduceIte, Option.some.injEq] at hr
    rw [← hr]
    exact h.writeRoot hopen (h.short _) hcur.sound hcur.short
  . have htarget : (t.db.page cur.txn).root = [] ∧ cur.cursor.currentKey = [] ∨
        cur.cursor.target = some cur.cursor.key := by
      by_cases hnil : (t.db.page cur.txn).root = []
      . exact Or.inl ⟨hnil, hok hnil⟩
      . right
        cases hk : cur.cursor.target with
        | none => exact absurd ⟨hk, hnil⟩ hthrows
        | some k => rw [hcur.sound.target k hk]
    have hlen : cur.cursor.key.length ≤ MAX_KEY_SIZE := by
      rcases htarget with ⟨-, hnew⟩ | htarget
      . rw [MapCursor.key, hnew]
        exact hcur.short.restKey
      . exact hcur.short.target _ htarget
    rw [hcur.sound.value_eq_insert v rfl htarget, Option.some.injEq] at hr
    rw [← hr]
    refine h.writeRoot hopen ((h.short _).insert hlen v) (MapCursor.sound_at ?_)
      (MapCursor.short_at hlen _)
    simp [OrdMap.insert]

theorem Inv.remove {c : Nat} {cur : ReplicationCursor} (hopen : Open t c cur) {now : UInt64}
    {info : List UInt8} {next : Option Key} {s : ReplicationDB}
    (hs : t.db.remove c cur now info next = some s)
    (hok : cur.cursor.isValid (t.db.page cur.txn).root = true → DeletionOk cur) :
    Inv ⟨s, t.committed, t.removals ++
      (if cur.cursor.isValid (t.db.page cur.txn).root then
        cur.cursor.target.toList.map fun k => ⟨k, now, info⟩ else [])⟩ ∧ Keeps t.db s := by
  have hcur := h.cursor c cur hopen.cursor
  unfold ReplicationDB.remove at hs
  split at hs
  next hvalid =>
    have htarget := hcur.sound.valid_target hvalid
    have hlen := hcur.short.target _ htarget
    rw [Option.bind_eq_some_iff] at hs
    obtain ⟨u, hu, hs⟩ := hs
    obtain ⟨hinv, hkeeps, ⟨d, hopen'⟩, hroot⟩ := h.insertTombstone hopen hlen (hok hvalid) hu
    rw [ReplicationDB.removeBase, hopen'.cursor, Option.bind_some, Option.map_eq_some_iff] at hs
    obtain ⟨r, hr, rfl⟩ := hs
    obtain ⟨hshort, hcursor⟩ := MapCursor.Short.remove (hroot ▸ h.short _) hr
    obtain ⟨hfinal, hkept⟩ := hinv.writeRoot hopen' hshort (MapCursor.sound_of_remove hr) hcursor
    rw [if_pos hvalid, htarget]
    exact ⟨hfinal, hkeeps.trans hkept⟩
  next hvalid =>
    rw [← Option.some.inj hs, if_neg hvalid, List.append_nil]
    exact ⟨h, Keeps.refl _⟩

theorem Inv.commit (c : Nat) :
    Inv ⟨t.db.commit c, if t.db.txnCursorId = some c then t.removals else t.committed,
      t.removals⟩ ∧ Keeps t.db (t.db.commit c) := by
  unfold ReplicationDB.commit
  rcases h.state with ⟨n, hidle⟩ | ⟨c', cur, hopen⟩
  . rw [hidle.activeTxn, hidle.txnCursorId]
    exact ⟨h, Keeps.refl _⟩
  . rw [hopen.activeTxn]
    simp only
    split
    next howner =>
      have hcur := h.cursor c' cur hopen.cursor
      let page' := Function.update t.db.page t.db.pageCount (t.db.page cur.txn)
      have hpage : ∀ p, p < t.db.pageCount → page' p = t.db.page p := by
        intro p hp
        simp only [page']
        rw [Function.update_apply, if_neg (Nat.ne_of_lt hp)]
      have hnew : page' t.db.pageCount = t.db.page cur.txn := Function.update_self _ _ _
      refine ⟨⟨?_, ?_, ?_, Or.inl ⟨t.db.pageCount, rfl, rfl, rfl, rfl, ?_, ?_, ?_, ?_⟩, ?_⟩, ?_⟩
      . exact Nat.lt_succ_of_lt hcur.txn
      . change (page' cur.txn).deletionRoot = _
        rw [hpage _ hcur.txn]
        exact hopen.deletionRoot
      . intro p
        change MapCursor.ShortKeys (page' p).root
        simp only [page']
        rw [Function.update_apply]
        split
        . exact h.short _
        . exact h.short p
      . exact Nat.lt_succ_self _
      . exact (Nat.ne_of_lt hcur.txn).symm
      . change (page' t.db.pageCount).root = (page' cur.txn).root
        rw [hpage _ hcur.txn, hnew]
      . change (page' t.db.pageCount).deletionRoot = (page' cur.txn).deletionRoot
        rw [hpage _ hcur.txn, hnew]
      . intro c' x hx
        have hxi := h.cursor c' x hx
        refine hxi.of_same (Nat.le_refl _) (Nat.le_succ _) ?_ ?_ ?_ ?_
        . exact congrArg _ (hpage _ hxi.txn)
        . rintro ⟨⟩
        . intro heq
          have hlt := hxi.txn
          rw [← Option.some.inj heq] at hlt
          exact absurd hlt (Nat.lt_irrefl _)
        . exact fun p hp => congrArg _ (hpage p hp)
      . intro p hp
        refine ⟨⟨Nat.lt_succ_of_lt hp.1, by rintro ⟨⟩, ?_⟩, congrArg _ (hpage p hp.1)⟩
        intro heq
        have hlt := hp.1
        rw [← Option.some.inj heq] at hlt
        exact absurd hlt (Nat.lt_irrefl _)
    next => exact ⟨h, Keeps.refl _⟩

theorem Inv.rollback (c : Nat) :
    Inv ⟨t.db.rollback c, t.committed,
      if t.db.txnCursorId = some c then t.committed else t.removals⟩ ∧
        Keeps t.db (t.db.rollback c) ∧ (t.db.rollback c).txnCursorId ≠ some c := by
  unfold ReplicationDB.rollback
  rcases h.state with ⟨n, hidle⟩ | ⟨c', cur, hopen⟩
  . rw [hidle.activeTxn, hidle.txnCursorId]
    refine ⟨h, Keeps.refl _, ?_⟩
    simp
  . by_cases howner : t.db.txnCursorId = some c
    . have hcc : c' = c := by
        rw [hopen.txnCursorId, Option.some.injEq] at howner
        exact howner
      rw [hcc] at hopen
      have hcur := h.cursor c cur hopen.cursor
      rw [hopen.activeTxn, hopen.cursor]
      simp only [howner, ↓reduceIte]
      let page' := Function.update t.db.page cur.txn (t.db.page t.db.readTxn)
      have hpage : ∀ p, page' p =
          if p = cur.txn then t.db.page t.db.readTxn else t.db.page p := by
        intro p
        simp only [page']
        rw [Function.update_apply]
      refine ⟨⟨h.read, ?_, ?_, Or.inl ⟨cur.txn, rfl, rfl, rfl, rfl, hcur.txn, hopen.ne, ?_, ?_⟩,
        ?_⟩, ?_, by rintro ⟨⟩⟩
      . change (page' t.db.readTxn).deletionRoot = _
        rw [hpage, if_neg (Ne.symm hopen.ne)]
        exact h.committed
      . intro p
        change MapCursor.ShortKeys (page' p).root
        rw [hpage]
        split
        . exact h.short _
        . exact h.short p
      . change (page' cur.txn).root = (page' t.db.readTxn).root
        rw [hpage, hpage, if_pos rfl, if_neg (Ne.symm hopen.ne)]
      . change (page' cur.txn).deletionRoot =
          (page' t.db.readTxn).deletionRoot
        rw [hpage, hpage, if_pos rfl, if_neg (Ne.symm hopen.ne)]
      . -- the deletion cursors of the page lose their stacks
        have hdeletion : ∀ {d e : DeletionCursor}, e.changed cur.txn = d →
            e.page < t.db.pageCount ∧ Ready (t.db.page e.page).deletionRoot e →
            d.page < t.db.pageCount ∧ Ready (page' d.page).deletionRoot d := by
          rintro d e rfl ⟨hlt, hready⟩
          have hpage' : (e.changed cur.txn).page = e.page := by
            unfold DeletionCursor.changed
            split <;> rfl
          rw [hpage']
          refine ⟨hlt, hready.changed fun hne => ?_⟩
          rw [hpage, if_neg hne]
        intro c' x hx
        simp only [ReplicationDB.changed, ReplicationDB.setCursor, ReplicationDB.setPage,
          Function.update_apply, Option.map_eq_some_iff] at hx
        obtain ⟨y, hy, rfl⟩ := hx
        split at hy
        next heq =>
          rw [heq, ← Option.some.inj hy]
          have hread : page' t.db.readTxn = t.db.page t.db.readTxn := by
            rw [hpage, if_neg (Ne.symm hopen.ne)]
          constructor
          . exact hcur.id
          . exact h.read
          . change MapCursor.Sound (page' t.db.readTxn).root _
            rw [hread]
            exact MapCursor.sound_refind _ _
          . have hoff : MapCursor.Short { cur.cursor with target := none } :=
              ⟨by simp, hcur.short.restKey⟩
            exact hoff.find _
          . rintro ⟨⟩
          . intro heq
            exact absurd (Option.some.inj heq) hopen.ne
          . intro d hd
            rw [Option.map_eq_some_iff] at hd
            obtain ⟨e, he, hed⟩ := hd
            exact hdeletion hed (hcur.deletion e he)
        next hne =>
          have hyi := h.cursor c' y hy
          have htxn : y.txn ≠ cur.txn := fun heq => hne (h.owner hopen hy heq)
          constructor
          . exact hyi.id
          . exact hyi.txn
          . change y.cursor.Sound (page' y.txn).root
            rw [hpage, if_neg htxn]
            exact hyi.sound
          . exact hyi.short
          . rintro ⟨⟩
          . intro heq
            exact absurd (Option.some.inj heq).symm htxn
          . intro d hd
            rw [Option.map_eq_some_iff] at hd
            obtain ⟨e, he, hed⟩ := hd
            exact hdeletion hed (hyi.deletion e he)
      . intro p hp
        have hne : p ≠ cur.txn := fun heq => hp.2.1 (heq ▸ hopen.activeTxn)
        refine ⟨⟨hp.1, by rintro ⟨⟩, ?_⟩, ?_⟩
        . intro heq
          exact absurd (Option.some.inj heq).symm hne
        . change (page' p).deletionRoot = _
          rw [hpage, if_neg hne]
    . rw [if_neg howner]
      split
      . rw [if_neg howner]
        exact ⟨h, Keeps.refl _, howner⟩
      . exact ⟨h, Keeps.refl _, howner⟩

/-- A cursor that does not write is gone. -/
theorem Inv.dropCursor {c : Nat} (hne : t.db.txnCursorId ≠ some c) :
    Inv ⟨{ t.db with cursors := Function.update t.db.cursors c none }, t.committed, t.removals⟩ := by
  refine ⟨h.read, h.committed, h.short, ?_, ?_⟩
  . rcases h.state with ⟨n, hidle⟩ | ⟨c', own, hopen⟩
    . exact Or.inl ⟨n, hidle.activeTxn, hidle.txnCursorId, hidle.nextTxnPage, hidle.removals,
        hidle.lt, hidle.ne, hidle.root, hidle.deletionRoot⟩
    . have hcc : c' ≠ c := fun heq => hne (heq ▸ hopen.txnCursorId)
      refine Or.inr ⟨c', own, hopen.activeTxn, hopen.txnCursorId, hopen.nextTxnPage, ?_,
        hopen.txnId, hopen.ne, hopen.deletionRoot⟩
      simp [hcc, hopen.cursor]
  . intro c' x hx
    simp only [Function.update_apply] at hx
    split at hx
    . cases hx
    . have hxi := h.cursor c' x hx
      exact ⟨hxi.id, hxi.txn, hxi.sound, hxi.short, hxi.active, hxi.next, hxi.deletion⟩

theorem Inv.destroyCursor (c : Nat) :
    Inv ⟨t.db.destroyCursor c, t.committed,
      if t.db.txnCursorId = some c then t.committed else t.removals⟩ ∧
        Keeps t.db (t.db.destroyCursor c) := by
  obtain ⟨hinv, hkeeps, hne⟩ := h.rollback c
  exact ⟨hinv.dropCursor hne, hkeeps⟩

/-- What one step leaves as it is. -/
theorem Inv.step {e : ReplicationEvent} {t' : DeletionTrace} (hs : t.step e = some t')
    (hok : StepOk t.db e) : t'.Inv ∧ Keeps t.db t'.db := by
  unfold DeletionTrace.step at hs
  rw [Option.map_eq_some_iff] at hs
  obtain ⟨s, hs, rfl⟩ := hs
  cases e with
  | createCursor =>
    rw [← Option.some.inj hs]
    exact ⟨h.createCursor, fun p hp => ⟨hp, rfl⟩⟩
  | destroyCursor c =>
    rw [← Option.some.inj hs]
    exact h.destroyCursor c
  | update c =>
    rw [ReplicationDB.step, Option.map_eq_some_iff] at hs
    obtain ⟨cur, hc, rfl⟩ := hs
    rw [StepOk, hc] at hok
    exact h.update hc hok
  | startTransaction c =>
    obtain ⟨hinv, hkeeps, -⟩ := h.startTransaction hs hok
    exact ⟨hinv, hkeeps⟩
  | find c key =>
    rw [ReplicationDB.step, Option.map_eq_some_iff] at hs
    obtain ⟨cur, hc, rfl⟩ := hs
    rw [StepOk, hc] at hok
    exact ⟨h.find hc hok, keeps_setCursor _ _ _⟩
  | value c v =>
    rw [ReplicationDB.step, Option.bind_eq_some_iff] at hs
    obtain ⟨w, hw, hs⟩ := hs
    obtain ⟨hstart, hok⟩ := hok
    rw [hw] at hok
    obtain ⟨hinv, hkeeps, hopen⟩ := h.writing hw hstart
    obtain ⟨hfinal, hkept⟩ := hinv.value hopen hs hok
    exact ⟨hfinal, hkeeps.trans hkept⟩
  | remove c now info next =>
    rw [ReplicationDB.step, Option.bind_eq_some_iff] at hs
    obtain ⟨w, hw, hs⟩ := hs
    obtain ⟨hstart, hok⟩ := hok
    rw [hw] at hok
    obtain ⟨hinv, hkeeps, hopen⟩ := h.writing hw hstart
    obtain ⟨hfinal, hkept⟩ := hinv.remove hopen hs fun hvalid => (hok hvalid).1
    rw [DeletionTrace.next, removed, hw]
    exact ⟨hfinal, hkeeps.trans hkept⟩
  | getDeletionCursor c =>
    rw [ReplicationDB.step, Option.map_eq_some_iff] at hs
    obtain ⟨cur, hc, rfl⟩ := hs
    exact ⟨h.getDeletionCursor hc, keeps_setCursor _ _ _⟩
  | commit c =>
    rw [← Option.some.inj hs]
    exact h.commit c
  | rollback c =>
    rw [← Option.some.inj hs]
    obtain ⟨hinv, hkeeps, -⟩ := h.rollback c
    exact ⟨hinv, hkeeps⟩

end Steps

theorem Inv.run {es : List ReplicationEvent} {t t' : DeletionTrace} (h : t.Inv)
    (hrun : t.run es = some t') (hok : t.RunOk es) : t'.Inv ∧ Keeps t.db t'.db := by
  induction es generalizing t with
  | nil =>
    rw [DeletionTrace.run, Option.some.injEq] at hrun
    rw [← hrun]
    exact ⟨h, Keeps.refl _⟩
  | cons e es ih =>
    rw [DeletionTrace.run, Option.bind_eq_some_iff] at hrun
    obtain ⟨u, hstep, hrun⟩ := hrun
    obtain ⟨hfirst, hrest⟩ := hok
    rw [hstep] at hrest
    obtain ⟨hu, hkeeps⟩ := h.step hstep hfirst
    obtain ⟨hinv, hkept⟩ := ih hu hrun hrest
    exact ⟨hinv, hkeeps.trans hkept⟩

/-- The transaction of a cursor that does not write has been committed. -/
theorem Inv.committed_of_cursor {t : DeletionTrace} (h : t.Inv) {c : Nat} {cur : ReplicationCursor}
    (hc : t.db.cursors c = some cur) (hne : t.db.txnCursorId ≠ some c) :
    Committed t.db cur.txn :=
  have hcur := h.cursor c cur hc
  ⟨hcur.txn, fun hactive => hne (hcur.active hactive), hcur.next⟩

/--
Two keys are removed by a cursor in one transaction, one of them once more by another cursor after a
rollback.
-/
def history : List ReplicationEvent :=
  [.createCursor, .find 0 [0x61], .value 0 ⟨false, [1]⟩, .find 0 [0x62], .value 0 ⟨false, [2]⟩,
    .commit 0, .createCursor, .find 0 [0x61], .remove 0 1 [] (some [0x62]), .rollback 0,
    .find 1 [0x61], .remove 1 3 [] (some [0x62]), .remove 1 4 [9] none, .commit 1]

/-- A cursor removes a key in two transactions. -/
def lost : List ReplicationEvent :=
  [.createCursor, .find 0 [0x61], .value 0 ⟨false, [1]⟩, .find 0 [0x62], .value 0 ⟨false, [2]⟩,
    .commit 0, .find 0 [0x61], .remove 0 1 [] (some [0x62]), .commit 0, .remove 0 2 [] none,
    .commit 0]

end DeletionTrace
end Leaves
