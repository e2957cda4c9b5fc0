import Leaves.Multi.Slots

/-!
The merge task. A cursor publishes a slot as `merging` and then wakes a task, the tasks are
coalesced by `_merge_task_active`. Every access of an atomic is a step, all threads see one order.
-/

namespace Leaves

/-- Who wakes the merge task: a cursor, or a caller of the database (or the age sweep). -/
abbrev Waker (n : Nat) := Fin n ⊕ Nat

/-- Where a waker is in `_schedule_merge` or `_request_drain_and_wait`. -/
inductive WakePc where
  | idle
  /-- W1: the slot has been made `merging`, it is parked before the wake -/
  | published (i : Nat)
  /-- `_merge_force` has been set -/
  | forced
  /-- W2: `_merge_signal` has been bumped for a slot, or for a request that waits for it -/
  | signalled (slot req : Option Nat)
  /-- `_merge_task_active` has been set, and nothing has been submitted yet -/
  | won (slot req : Option Nat)
  | waiting (req : Nat)
  | released
  deriving DecidableEq

/-- Where a task is in `_run_merge_task`, `sig` and the others are its local variables. -/
inductive TaskPc where
  | absent
  /-- it is queued, or it has won the flag again -/
  | load
  /-- the begin of the inner loop -/
  | exchange (sig : Nat)
  | lock (sig : Nat) (force : Bool)
  | locked (sig : Nat) (force : Bool)
  /-- `_collect_and_merge_locked` -/
  | collect (sig : Nat) (force : Bool) (i count : Nat) (mergingSeen : Bool) (mergeSlots : List Nat)
  | drain (sig : Nat) (mergingSeen : Bool) (mergeSlots : List Nat)
  | publish (sig : Nat) (mergingSeen : Bool)
  /-- J1, and J2 after it -/
  | clear (sig : Nat)
  | recheck (sig : Nat)
  /-- `_has_merging_slot` -/
  | count
  | scan (i count : Nat)
  | rewin
  | retired
  deriving DecidableEq

structure MergeState (n : Nat) where
  table : SlotTable n
  /-- `_merge_signal` and `_merge_done`, they do not come to 2^64 -/
  signal : Nat
  done : Nat
  active : Bool
  force : Bool
  execLock : Option Nat
  inflight : Nat
  wakes : Waker n → WakePc
  tasks : Nat → TaskPc

inductive MergeEvent (n : Nat) where
  /-- a cursor begins something at the slots, and goes on -/
  | cursor (c : Fin n) (a : CursorAction)
  | resume (c : Fin n) (ok : Bool)
  | signal (w : Waker n)
  | force (k : Nat)
  | request (k : Nat)
  | acquire (w : Waker n)
  | submit (w : Waker n) (t : Nat)
  | release (k : Nat)
  | load (t : Nat)
  /-- a pass of the inner loop starts -/
  | pass (t : Nat)
  | lock (t : Nat)
  | count (t : Nat)
  /-- the task looks at a slot, which may have been attached past the age limit -/
  | collect (t : Nat) (aged : Bool)
  | merge (t : Nat)
  | merging (t : Nat) (ok : Bool)
  /-- an exception ends the pass -/
  | throw (t : Nat)
  | publish (t : Nat)
  | clear (t : Nat)
  | recheck (t : Nat)
  | scan (t : Nat)
  | rewin (t : Nat)

namespace SlotTable

variable {n : Nat}

/-- `reset_in_place` throws `TransactionActive` out of `_recycle_slot`. -/
def throws (s : SlotTable n) (c : Option (Fin n)) : Bool :=
  match (s.users c).pc with
  | .recycle i => 0 < (s.slots i).txnRefs
  | _ => false

/-- The slot that a cursor makes `merging` when it begins something. -/
def publishes (s : SlotTable n) (c : Fin n) : CursorAction → Option Nat
  | .commit true => (s.users (some c)).writeSource
  | .rollback =>
    (s.users (some c)).writeSource.filter fun i => (s.slots i).state ≠ .writing
  | _ => none

/-- The slot that a cursor makes `merging` when it goes on. -/
def resumePublishes (s : SlotTable n) (c : Fin n) (ok : Bool) : Option Nat :=
  match (s.users (some c)).pc with
  | .opening first => if first && !ok then (s.users (some c)).writeSource else none
  | .detach => (s.users (some c)).writeSource
  | _ => none

end SlotTable

namespace MergeState

variable {n : Nat}

def create (n : Nat) : MergeState n where
  table := .create n
  signal := 0
  done := 0
  active := false
  force := false
  execLock := none
  inflight := 0
  wakes := fun _ => .idle
  tasks := fun _ => .absent

def setWake (s : MergeState n) (w : Waker n) (pc : WakePc) : MergeState n :=
  { s with wakes := Function.update s.wakes w pc }

def setTask (s : MergeState n) (t : Nat) (pc : TaskPc) : MergeState n :=
  { s with tasks := Function.update s.tasks t pc }

/-- A cursor wakes the task when it has parked the slot. -/
def Free (s : MergeState n) : Waker n → Prop
  | .inl c => (s.table.users (some c)).pc = .idle
  | .inr _ => True

instance (s : MergeState n) (w : Waker n) : Decidable (s.Free w) := by
  unfold Free
  cases w <;> infer_instance

/-- The table after a step of a cursor, and its W1 if there was one. -/
def setTable (s : MergeState n) (c : Fin n) (published : Option Nat) (table : SlotTable n) :
    MergeState n :=
  match published with
  | some i => { s with table }.setWake (.inl c) (.published i)
  | none => { s with table }

/-- The end of `_schedule_merge_task`: only a request waits. -/
def wakeDone (s : MergeState n) (w : Waker n) : Option Nat → MergeState n
  | some req => s.setWake w (.waiting req)
  | none => s.setWake w .idle

/-- The end of a pass gives `merge_exec_lock` back. -/
def endPass (s : MergeState n) (t sig : Nat) (mergingSeen : Bool) : MergeState n :=
  { s with execLock := none }.setTask t (.publish sig mergingSeen)

/-- `_retire_merge_task` -/
def retire (s : MergeState n) (t : Nat) : MergeState n :=
  { s with inflight := s.inflight - 1 }.setTask t .retired

/-- `_collect_and_merge_locked` looks at slot `i`: it is taken, or it is left. -/
def collect (state : SlotState) (i : Nat) (force aged mergingSeen : Bool) (mergeSlots : List Nat) :
    Bool × List Nat :=
  match state with
  | .merging => (true, mergeSlots ++ [i])
  | .attached => (mergingSeen, if force || aged then mergeSlots ++ [i] else mergeSlots)
  | _ => (mergingSeen, mergeSlots)

def wakerStep (s : MergeState n) : MergeEvent n → Option (MergeState n)
  | .cursor c a =>
    if s.wakes (.inl c) = .idle then
      (s.table.step (.cursor c a)).map (s.setTable c (s.table.publishes c a))
    else none
  | .resume c ok =>
    if s.table.throws (some c) then
      -- the exception leaves the function before W2
      (s.table.step (.resume (some c) ok)).map fun table =>
        { s with table }.setWake (.inl c) .idle
    else
      (s.table.step (.resume (some c) ok)).map (s.setTable c (s.table.resumePublishes c ok))
  | .signal w =>
    if s.Free w then
      match s.wakes w with
      | .idle => some ({ s with signal := s.signal + 1 }.setWake w (.signalled none none))
      | .published i =>
        some ({ s with signal := s.signal + 1 }.setWake w (.signalled (some i) none))
      | _ => none
    else none
  | .force k =>
    match s.wakes (.inr k) with
    | .idle => some ({ s with force := true }.setWake (.inr k) .forced)
    | _ => none
  | .request k =>
    match s.wakes (.inr k) with
    | .idle | .forced =>
      some ({ s with signal := s.signal + 1 }.setWake (.inr k)
        (.signalled none (some (s.signal + 1))))
    | _ => none
  | .acquire w =>
    match s.wakes w with
    | .signalled slot req =>
      if s.active then some (s.wakeDone w req)
      else some ({ s with active := true }.setWake w (.won slot req))
    | _ => none
  | .submit w t =>
    match s.wakes w, s.tasks t with
    | .won _ req, .absent =>
      some (({ s with inflight := s.inflight + 1 }.setTask t .load).wakeDone w req)
    | _, _ => none
  | .release k =>
    match s.wakes (.inr k) with
    | .waiting req => if req ≤ s.done then some (s.setWake (.inr k) .released) else none
    | _ => none
  | _ => none

/-- The steps of a task up to J1, the flag is its own. -/
def drainStep (s : MergeState n) : MergeEvent n → Option (MergeState n)
  | .load t =>
    match s.tasks t with
    | .load => some (s.setTask t (.exchange s.signal))
    | _ => none
  | .pass t =>
    match s.tasks t with
    | .exchange sig => some ({ s with force := false }.setTask t (.lock sig s.force))
    | _ => none
  | .lock t =>
    match s.tasks t, s.execLock with
    | .lock sig force, none => some ({ s with execLock := some t }.setTask t (.locked sig force))
    | _, _ => none
  | .collect t aged =>
    match s.tasks t with
    | .collect sig force i count seen mergeSlots =>
      if i < count then
        let r := collect (s.table.slots i).state i force aged seen mergeSlots
        some (s.setTask t (.collect sig force (i + 1) count r.1 r.2))
      else some (s.setTask t (.drain sig seen mergeSlots))
    | _ => none
  | .merge t =>
    match s.tasks t with
    | .drain sig seen [] =>
      if (s.table.users none).pc = .idle then some (s.endPass t sig seen) else none
    | .drain sig seen (i :: mergeSlots) =>
      if (s.table.users none).pc = .idle then
        match s.table.step (.merge i) with
        | some table => some ({ s with table }.setTask t (.drain sig seen mergeSlots))
        -- neither `attached` nor `merging`
        | none => some (s.setTask t (.drain sig seen mergeSlots))
      else none
    | _ => none
  | .merging t ok =>
    match s.tasks t with
    | .drain sig _ _ =>
      (s.table.step (.resume none ok)).map fun table =>
        if s.table.throws none then { s with table }.endPass t sig false else { s with table }
    | _ => none
  | .throw t =>
    match s.tasks t with
    | .collect sig .. => some (s.endPass t sig false)
    | .drain sig .. =>
      if (s.table.users none).pc = .idle then some (s.endPass t sig false) else none
    | _ => none
  | .publish t =>
    match s.tasks t with
    | .publish sig seen =>
      some ({ s with done := max s.done sig }.setTask t
        (if seen then .exchange sig else .clear sig))
    | _ => none
  | _ => none

/-- J1 and J2 of a task, and what reads the number of the slots before a scan. -/
def retireStep (s : MergeState n) : MergeEvent n → Option (MergeState n)
  | .count t =>
    match s.tasks t with
    | .locked sig force => some (s.setTask t (.collect sig force 0 s.table.count false []))
    | .count => some (s.setTask t (.scan 0 s.table.count))
    | _ => none
  | .clear t =>
    match s.tasks t with
    | .clear sig => some ({ s with active := false }.setTask t (.recheck sig))
    | _ => none
  | .recheck t =>
    match s.tasks t with
    | .recheck sig => some (s.setTask t (if s.signal ≠ sig then .rewin else .count))
    | _ => none
  | .scan t =>
    match s.tasks t with
    | .scan i count =>
      if i < count then
        some (s.setTask t
          (if (s.table.slots i).state = .merging then .rewin else .scan (i + 1) count))
      else some (s.retire t)
    | _ => none
  | .rewin t =>
    match s.tasks t with
    | .rewin =>
      if s.active then some (s.retire t) else some ({ s with active := true }.setTask t .load)
    | _ => none
  | _ => none

def step (s : MergeState n) (e : MergeEvent n) : Option (MergeState n) :=
  match e with
  | .cursor .. | .resume .. | .signal _ | .force _ | .request _ | .acquire _ | .submit ..
  | .release _ => s.wakerStep e
  | .load _ | .pass _ | .lock _ | .collect .. | .merge _ | .merging .. | .throw _ | .publish _ =>
    s.drainStep e
  | .count _ | .clear _ | .recheck _ | .scan _ | .rewin _ => s.retireStep e

def run (s : MergeState n) : List (MergeEvent n) → Option (MergeState n)
  | [] => some s
  | e :: es => (s.step e).bind fun s => s.run es

end MergeState
end Leaves
