import Mathlib.Logic.Function.Basic
import Leaves.Multi.Tributary

/-!
The confluence of `multi/_confluence_db.hpp` with a single producer: what it writes goes into the
tributary of a slot, which is merged into the main database at some time and then used again.
-/

namespace Leaves

open OrdMap

def MAX_TRIBUTARIES : Nat := 128

structure Confluence where
  /-- `_main_txn->txn_id` and the map of the main database -/
  mainTxnId : Nat
  main : List (Key × Value)
  /-- `slots_count` -/
  count : Nat
  slots : Nat → Tributary
  /-- the sticky slot of the producer -/
  writeSource : Option Nat
  /-- the cursor of its tributary -/
  cursor : MapCursor
  /-- the tries of the open transaction with `_pending_write_keys` -/
  transaction : Option (Tries × Nat)

namespace Confluence

/-- A confluence over a main database. -/
def create (mainTxnId : Nat) (main : List (Key × Value)) : Confluence :=
  ⟨mainTxnId, main, 0, fun _ => .fresh .empty, none, .init, none⟩

def setSlot (s : Confluence) (i : Nat) (t : Tributary) : Confluence :=
  { s with slots := Function.update s.slots i t }

def setState (s : Confluence) (i : Nat) (state : SlotState) : Confluence :=
  s.setSlot i { s.slots i with state }

/-- The transaction of the cursor of the tributary. -/
def begin (s : Confluence) (i : Nat) (cursor : MapCursor) : Confluence :=
  { s with writeSource := some i, cursor, transaction := some ((s.slots i).tries, 0) }

/-- `_try_claim_or_alloc`: without a free slot the producer has to wait for a merge. -/
def claim (s : Confluence) : Option Confluence :=
  match (List.range s.count).find? fun i => (s.slots i).state = .empty with
  | some i => some ((s.setState i .firstWriting).begin i .init)
  | none =>
    if s.count < MAX_TRIBUTARIES then
      some (({ s with count := s.count + 1 }.setSlot s.count (.fresh .firstWriting)).begin s.count .init)
    else none

/-- `start_transaction` -/
def startTransaction (s : Confluence) : Option Confluence :=
  if s.transaction.isSome then some s
  else
    match s.writeSource with
    | none => s.claim
    | some i =>
      match (s.slots i).state with
      | .attached => some ((s.setState i .writing).begin i s.cursor)
      -- `reclaim_in_place`
      | .merged => some ((s.setSlot i (.fresh .firstWriting)).begin i .init)
      | _ => { s with writeSource := none }.claim

/-- `value` and `remove` of the cursor of the tributary -/
def write (s : Confluence) (change : Tries → MapCursor → Option (Tries × MapCursor)) :
    Option Confluence :=
  s.transaction.bind fun (t, pending) =>
    (change t s.cursor).map fun (t, cursor) =>
      { s with cursor, transaction := some (t, pending + 1) }

/-- `find` and `value(v)`, a key that is too big is refused. -/
def value (s : Confluence) (k : Key) (v : Value) : Option Confluence :=
  if MAX_KEY_SIZE < k.length then some s
  else s.write fun t c => t.value (c.find t.data k) v

/-- `find` and `remove` -/
def remove (s : Confluence) (k : Key) (next : Option Key) : Option Confluence :=
  if MAX_KEY_SIZE < k.length then some s
  else s.write fun t c => t.removeKey (c.find t.data k) k next

def commit (threshold : Nat) (s : Confluence) : Confluence :=
  match s.writeSource, s.transaction with
  | some i, some (t, pending) =>
    let writeCount := (s.slots i).writeCount + pending
    let txnId := (s.slots i).txnId + 1
    if threshold ≤ writeCount then
      { s.setSlot i ⟨.merging, txnId, t, writeCount⟩ with writeSource := none, transaction := none }
    else
      { s.setSlot i ⟨.attached, txnId, t, writeCount⟩ with transaction := none }
  | _, _ => s

def rollback (s : Confluence) : Confluence :=
  match s.writeSource, s.transaction with
  | some i, some _ =>
    if (s.slots i).state = .writing then
      { s.setState i .attached with
        cursor := s.cursor.refind (s.slots i).tries.data, transaction := none }
    else { s.setState i .merging with writeSource := none, transaction := none }
  | _, _ => s

/-- `_release_write_source` -/
def releaseWriteSource (s : Confluence) : Confluence :=
  match s.writeSource with
  | none => s
  | some i =>
    if (s.slots i).state = .attached then { s.setState i .merging with writeSource := none }
    else { s with writeSource := none }

/-- The first pass of `_do_merge`. -/
def applyDeletions (main deleted : List (Key × Value)) : List (Key × Value) :=
  deleted.foldl (fun m e => if (lookup m e.1).isSome then erase m e.1 else m) main

/-- The second pass of `_do_merge`: the merger with the default aspect. -/
def mergeData (main data : List (Key × Value)) : List (Key × Value) :=
  data.foldl (fun m e => insert m e.1 e.2) main

/-- `merge_tributary` takes a slot from its owner. -/
def markMerging (s : Confluence) (i : Nat) : Option Confluence :=
  if (s.slots i).state = .attached then some (s.setState i .merging) else none

/-- `_do_merge`, and the rest of `merge_tributary`. -/
def merge (s : Confluence) (i : Nat) : Option Confluence :=
  let slot := s.slots i
  if slot.state = .merging then
    some { s.setState i .merged with
      mainTxnId := s.mainTxnId + 1
      main := mergeData (applyDeletions s.main slot.tries.deleted) slot.tries.data }
  else none

/-- `_recycle_slot`, by whoever gives the last pin back. -/
def recycle (s : Confluence) (i : Nat) : Option Confluence :=
  if (s.slots i).state = .merged ∧ s.writeSource ≠ some i then some (s.setSlot i (.fresh .empty))
  else none

/-- The candidate of a tributary for a key. -/
def candidate (s : Confluence) (k : Key) (i : Nat) : Option Candidate :=
  let t := (s.slots i).tries
  if t.found k || t.isDeleted k then
    some ⟨(s.slots i).txnId, (lookup t.data k).getD default, t.isDeleted k⟩
  else none

def mainCandidate (s : Confluence) (k : Key) : Option Candidate :=
  (lookup s.main k).map fun v => ⟨s.mainTxnId, v, false⟩

/-- The sources of a cursor between its transactions: it leaves its own slot out. -/
def sources (s : Confluence) (own : Option Nat) : List Nat :=
  (List.range s.count).filter fun i => (s.slots i).state.readable && own != some i

/-- The value `find` comes to with the newest snapshots, `own` is the write slot of the cursor. -/
def find (s : Confluence) (own : Option Nat) (k : Key) : Option Value :=
  let candidates := (s.mainCandidate k).toList ++ (s.sources own).filterMap (s.candidate k)
  (Candidate.resolve .default k candidates).map (·.value)

end Confluence

/-- What the producer and the merge task do. -/
inductive ConfluenceEvent where
  | startTransaction
  | value (k : Key) (v : Value)
  /-- The cursor of the tributary comes to rest at `next`. -/
  | remove (k : Key) (next : Option Key)
  | commit
  | rollback
  /-- the cursor is destroyed, the producer goes on with another one -/
  | destroy
  | markMerging (i : Nat)
  | merge (i : Nat)
  | recycle (i : Nat)

namespace Confluence

def step (threshold : Nat) (s : Confluence) : ConfluenceEvent → Option Confluence
  | .startTransaction => s.startTransaction
  | .value k v => s.value k v
  | .remove k next => s.remove k next
  | .commit => some (s.commit threshold)
  | .rollback => some s.rollback
  | .destroy => some s.rollback.releaseWriteSource
  | .markMerging i => s.markMerging i
  | .merge i => s.merge i
  | .recycle i => s.recycle i

end Confluence
end Leaves
