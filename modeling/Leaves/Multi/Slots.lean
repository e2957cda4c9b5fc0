import Leaves.Multi.Confluence

/-!
The slots of the tributaries between any number of cursors and the merge task, in atomic steps. The
state of a slot and its pin count are two atomics which are changed one after the other.
-/

namespace Leaves

/-- A cursor owns the slot in these states. -/
def SlotState.owned : SlotState → Bool
  | firstWriting | writing | attached => true
  | empty | merging | merged => false

structure Slot where
  state : SlotState
  /-- the pin count -/
  refs : Nat
  /-- the pins of the transactions of the tributary, `is_active` looks for them -/
  txnRefs : Nat
  /-- what has been committed to the tributary is in the main database -/
  inMain : Bool
  /-- how often the slot has become `merged`, and how often a reset has taken it out of this state -/
  merges : Nat
  recycles : Nat
  deriving DecidableEq

def Slot.fresh (state : SlotState) (refs : Nat) : Slot := ⟨state, refs, 0, true, 0, 0⟩

/-- What a thread does next. -/
inductive Pc where
  | idle
  /-- `_try_claim`: the slot is pinned -/
  | claim (i : Nat)
  /-- the cursor of the write source is made -/
  | reinit
  /-- the transaction of the tributary is started, the first one of the slot or a later one -/
  | opening (first : Bool)
  /-- `start_transaction` has seen that the slot is `merged` -/
  | sawMerged
  /-- `reclaim_in_place` drops its cursor, and then it resets the tributary -/
  | reclaim
  | reset
  /-- the write source is parked -/
  | park
  /-- `_release_write_source` has seen that the slot is `attached` -/
  | detach
  /-- `_ensure_sources` has seen a readable slot, and then it has pinned it -/
  | checked (i : Nat)
  | source (i : Nat)
  /-- `_unpin_slot` gives the pin back, and then it looks at the state if the pin was the last one -/
  | unpin (i : Nat)
  | unpinned (i : Nat)
  /-- `_recycle_slot` resets the tributary, and then it makes the slot `empty` -/
  | recycle (i : Nat)
  | emptied (i : Nat)
  /-- `merge_tributary` pins the slot, and `_do_merge` its transaction -/
  | taken (i : Nat)
  | mergePinned (i : Nat)
  /-- `_do_merge` -/
  | applying (i : Nat)
  | applied (i : Nat)
  /-- an exception was thrown in `_do_merge` -/
  | failed (i : Nat)
  | failedUnpin (i : Nat)
  deriving DecidableEq

/-- A cursor, or the merge task. -/
structure SlotUser where
  pc : Pc
  writeSource : Option Nat
  /-- the write source has its cursor -/
  writeCursor : Bool
  inTransaction : Bool
  /-- the slots of the pinned read sources -/
  sources : List Nat
  deriving DecidableEq

/-- The slots and the threads: `none` is the merge task. -/
structure SlotTable (n : Nat) where
  count : Nat
  slots : Nat → Slot
  users : Option (Fin n) → SlotUser
  /-- `TransactionActive` has been thrown -/
  thrown : Bool

/-- What a cursor begins. -/
inductive CursorAction where
  | startTransaction
  /-- `start_transaction` without a write source: a free slot, or a new one -/
  | claim (i : Nat)
  | alloc
  /-- the threshold is reached or not -/
  | commit (full : Bool)
  | rollback
  /-- `_release_write_source` -/
  | release
  /-- `_ensure_sources` looks at a slot -/
  | check (i : Nat)
  /-- a read source is parked -/
  | parkSource (i : Nat)

inductive SlotEvent (n : Nat) where
  | cursor (c : Fin n) (a : CursorAction)
  /-- the merge task comes to a slot -/
  | merge (i : Nat)
  /-- a thread goes on, what it calls may fail -/
  | resume (c : Option (Fin n)) (ok : Bool)

namespace SlotTable

variable {n : Nat}

def create (n : Nat) : SlotTable n :=
  ⟨0, fun _ => .fresh .empty 0, fun _ => ⟨.idle, none, false, false, []⟩, false⟩

def setUser (s : SlotTable n) (c : Option (Fin n)) (u : SlotUser) : SlotTable n :=
  { s with users := Function.update s.users c u }

def setSlot (s : SlotTable n) (i : Nat) (slot : Slot) : SlotTable n :=
  { s with slots := Function.update s.slots i slot }

def goto (s : SlotTable n) (c : Option (Fin n)) (pc : Pc) : SlotTable n :=
  s.setUser c { s.users c with pc }

def setState (s : SlotTable n) (i : Nat) (state : SlotState) : SlotTable n :=
  s.setSlot i { s.slots i with state }

def setRefs (s : SlotTable n) (i : Nat) (refs : Nat) : SlotTable n :=
  s.setSlot i { s.slots i with refs }

def setTxnRefs (s : SlotTable n) (i : Nat) (txnRefs : Nat) : SlotTable n :=
  s.setSlot i { s.slots i with txnRefs }

section Fields

variable (s : SlotTable n) (c d : Option (Fin n)) (u : SlotUser) (pc : Pc) (i : Nat) (slot : Slot)
  (state : SlotState) (refs txnRefs : Nat)

@[simp]
theorem users_setUser : (s.setUser c u).users d = if d = c then u else s.users d := by
  simp [setUser, Function.update_apply]

@[simp]
theorem users_goto :
    (s.goto c pc).users d = if d = c then { s.users c with pc } else s.users d := by
  rw [goto, users_setUser]

@[simp]
theorem users_setSlot : (s.setSlot i slot).users = s.users := rfl

@[simp]
theorem users_setState : (s.setState i state).users = s.users := rfl

@[simp]
theorem users_setRefs : (s.setRefs i refs).users = s.users := rfl

@[simp]
theorem users_setTxnRefs : (s.setTxnRefs i txnRefs).users = s.users := rfl

end Fields

/-- What an idle cursor does first. -/
def start (s : SlotTable n) (c : Option (Fin n)) (u : SlotUser) :
    CursorAction → Option (SlotTable n)
  | .startTransaction =>
    match u.inTransaction, u.writeSource with
    | false, some i =>
      match (s.slots i).state with
      | .attached => some ((s.setState i .writing).goto c (.opening false))
      | .merged => some (s.goto c .sawMerged)
      | _ => some (s.goto c .park)
    | _, _ => none
  | .claim i =>
    if u.inTransaction = false ∧ u.writeSource = none ∧ i < s.count ∧ (s.slots i).state = .empty then
      some ((s.setState i .firstWriting).goto c (.claim i))
    else none
  | .alloc =>
    if u.inTransaction = false ∧ u.writeSource = none ∧ s.count < MAX_TRIBUTARIES then
      some (({ s with count := s.count + 1 }.setSlot s.count (.fresh .firstWriting 1)).setUser c
        { u with writeSource := some s.count, pc := .reinit })
    else none
  | .commit full =>
    match u.inTransaction, u.writeSource with
    | true, some i =>
      let slot := { s.slots i with inMain := false }
      if full then
        some ((s.setSlot i { slot with state := .merging }).setUser c
          { u with inTransaction := false, pc := .park })
      else
        some ((s.setSlot i { slot with state := .attached }).setUser c
          { u with inTransaction := false })
    | _, _ => none
  | .rollback =>
    match u.inTransaction, u.writeSource with
    | true, some i =>
      if (s.slots i).state = .writing then
        some ((s.setState i .attached).setUser c { u with inTransaction := false })
      else
        some ((s.setState i .merging).setUser c { u with inTransaction := false, pc := .park })
    | _, _ => none
  | .release =>
    match u.inTransaction, u.writeSource with
    | false, some i =>
      if (s.slots i).state = .attached then some (s.goto c .detach) else some (s.goto c .park)
    | _, _ => none
  | .check i =>
    if i < s.count ∧ (s.slots i).state.readable ∧ u.writeSource ≠ some i then
      some (s.goto c (.checked i))
    else none
  | .parkSource i =>
    if i ∈ u.sources then
      some ((s.setTxnRefs i ((s.slots i).txnRefs - 1)).setUser c
        { u with sources := u.sources.erase i, pc := .unpin i })
    else none

/-- The next step of a thread. -/
def resume (s : SlotTable n) (c : Option (Fin n)) (u : SlotUser) (ok : Bool) :
    Option (SlotTable n) :=
  match u.pc, u.writeSource with
  | .claim i, _ =>
    some ((s.setRefs i ((s.slots i).refs + 1)).setUser c
      { u with writeSource := some i, pc := .reinit })
  | .reinit, some i =>
    some ((s.setTxnRefs i ((s.slots i).txnRefs + 1)).setUser c
      { u with writeCursor := true, pc := .opening true })
  | .opening first, some i =>
    if ok then some (s.setUser c { u with inTransaction := true, pc := .idle })
    else if first then some ((s.setState i .merging).goto c .park)
    else some ((s.setState i .attached).goto c .idle)
  | .sawMerged, some i =>
    if (s.slots i).state = .merged then
      some ((s.setSlot i { s.slots i with
        state := .firstWriting, recycles := (s.slots i).recycles + 1 }).goto c .reclaim)
    else some (s.goto c .park)
  | .reclaim, some i =>
    some ((s.setTxnRefs i ((s.slots i).txnRefs - 1)).setUser c
      { u with writeCursor := false, pc := .reset })
  | .reset, some i =>
    if 0 < (s.slots i).txnRefs then some ({ s with thrown := true }.goto c .idle)
    else some ((s.setSlot i { s.slots i with inMain := true }).goto c .reinit)
  | .park, some i =>
    some ((s.setTxnRefs i ((s.slots i).txnRefs - u.writeCursor.toNat)).setUser c
      { u with writeSource := none, writeCursor := false, pc := .unpin i })
  | .detach, some i => some ((s.setState i .merging).goto c .park)
  | .checked i, _ => some ((s.setRefs i ((s.slots i).refs + 1)).goto c (.source i))
  | .source i, _ =>
    some ((s.setTxnRefs i ((s.slots i).txnRefs + 1)).setUser c
      { u with sources := i :: u.sources, pc := .idle })
  | .unpin i, _ =>
    some ((s.setRefs i ((s.slots i).refs - 1)).goto c
      (if (s.slots i).refs = 1 then .unpinned i else .idle))
  | .unpinned i, _ =>
    some (s.goto c (if (s.slots i).state = .merged then .recycle i else .idle))
  | .recycle i, _ =>
    if 0 < (s.slots i).txnRefs then some ({ s with thrown := true }.goto c .idle)
    else some ((s.setSlot i { s.slots i with inMain := true }).goto c (.emptied i))
  | .emptied i, _ =>
    some ((s.setSlot i { s.slots i with
      state := .empty, recycles := (s.slots i).recycles + 1 }).goto c .idle)
  | .taken i, _ => some ((s.setRefs i ((s.slots i).refs + 1)).goto c (.mergePinned i))
  | .mergePinned i, _ => some ((s.setTxnRefs i ((s.slots i).txnRefs + 1)).goto c (.applying i))
  | .applying i, _ =>
    let slot := { s.slots i with txnRefs := (s.slots i).txnRefs - 1 }
    if ok then some ((s.setSlot i { slot with inMain := true }).goto c (.applied i))
    else some ((s.setSlot i slot).goto c (.failed i))
  | .applied i, _ =>
    some ((s.setSlot i { s.slots i with
      state := .merged, merges := (s.slots i).merges + 1 }).goto c (.unpin i))
  | .failed i, _ => some ((s.setState i .attached).goto c (.failedUnpin i))
  | .failedUnpin i, _ => some ((s.setRefs i ((s.slots i).refs - 1)).goto c .idle)
  | _, _ => none

def step (s : SlotTable n) : SlotEvent n → Option (SlotTable n)
  | .cursor c a => if (s.users c).pc = .idle then s.start c (s.users c) a else none
  | .merge i =>
    if (s.users none).pc = .idle ∧
        ((s.slots i).state = .attached ∨ (s.slots i).state = .merging) then
      some ((s.setState i .merging).goto none (.taken i))
    else none
  | .resume c ok => s.resume c (s.users c) ok

def run (s : SlotTable n) : List (SlotEvent n) → Option (SlotTable n)
  | [] => some s
  | e :: es => (s.step e).bind fun s => s.run es

end SlotTable
end Leaves
