import Mathlib.Algebra.GroupWithZero.Nat
import Mathlib.Data.List.Sort

/-!
The thread pool of `util/_threadpool.hpp` as a system of threads. A section under the mutex is one
step, and so is an access to an atomic outside of it. A wait may end at any time.
-/

namespace Leaves

/-- The tasks are named by numbers, those of the scheduled jobs by the ids of the jobs. -/
inductive PoolTask where
  | submitted (n : Nat)
  | job (id : Nat)
  deriving DecidableEq, Repr

/-- Where a worker is in `_worker_loop`. -/
inductive PoolWorker where
  /-- Before it reads `_task_count`, in this round of the spin loop. -/
  | spin (s : Nat)
  /-- Before the `try_lock`. -/
  | grab (s : Nat)
  /-- Before it reads `_pool_shutdown` at the end of the round. -/
  | look (s : Nat)
  /-- Before it locks the mutex for the slow path. -/
  | slow
  /-- In `wait_until` (timed) or `wait`. -/
  | asleep (timed notified : Bool)
  | running (task : PoolTask)
  /-- The task is over, `_complete_task` is not called yet. -/
  | completing
  | exited
  deriving DecidableEq, Repr

namespace PoolWorker

def notify : PoolWorker → PoolWorker
  | .asleep timed _ => .asleep timed true
  | w => w

/-- It waits and has not been notified. -/
def waiting : PoolWorker → Bool
  | .asleep _ notified => !notified
  | _ => false

end PoolWorker

/-- Where the caller of one of the functions is. -/
inductive PoolCall where
  | submitLock (n : Nat)
  | submitCount
  | submitCheck
  | submitNotify
  /-- The task is run by the caller, as there are no workers. -/
  | inline (n : Nat)
  | scheduleLock (id when : Nat)
  | scheduleNotify
  | idleLock
  | idleWait (notified : Bool)
  | stopNotify
  | stopJoin
  | done
  deriving DecidableEq, Repr

namespace PoolCall

def notifyIdle : PoolCall → PoolCall
  | .idleWait _ => .idleWait true
  | c => c

end PoolCall

/-- The last three fields are a record of what has happened. -/
structure ThreadPool where
  workers : List PoolWorker
  taskQueue : List PoolTask
  /-- The ids and the times of the jobs, the earliest one first. -/
  schedQueue : List (Nat × Nat)
  poolShutdown : Bool
  activeTasks : Nat
  nextJobId : Nat
  taskCount : Nat
  sleepingCount : Nat
  now : Nat
  calls : List PoolCall
  accepted : List Nat
  executed : List PoolTask
  cancelled : List Nat
  deriving DecidableEq, Repr

namespace ThreadPool

def SPIN_ITERS : Nat := 30000

/-- The constructor. Without workers the pool is lazy. -/
def init (numThreads : Nat) : ThreadPool :=
  { workers := List.replicate numThreads (.spin 0), taskQueue := [], schedQueue := [],
    poolShutdown := false, activeTasks := 0, nextJobId := 1, taskCount := 0, sleepingCount := 0,
    now := 0, calls := [], accepted := [], executed := [], cancelled := [] }

def setWorker (s : ThreadPool) (i : Nat) (w : PoolWorker) : ThreadPool :=
  { s with workers := s.workers.set i w }

def setCall (s : ThreadPool) (j : Nat) (c : PoolCall) : ThreadPool :=
  { s with calls := s.calls.set j c }

def addCall (s : ThreadPool) (c : PoolCall) : ThreadPool := { s with calls := s.calls ++ [c] }

/-- `_queue_cv.notify_all` -/
def notifyAll (s : ThreadPool) : ThreadPool := { s with workers := s.workers.map PoolWorker.notify }

/-- `_queue_cv.notify_one` wakes the worker `k`. It wakes none only if none is waiting. -/
def notifyOne (s : ThreadPool) (k : Nat) : Option ThreadPool :=
  match s.workers[k]? with
  | some (.asleep timed false) => some (s.setWorker k (.asleep timed true))
  | _ => if s.workers.any PoolWorker.waiting then none else some s

/-- `_idle_cv.notify_all` -/
def notifyIdle (s : ThreadPool) : ThreadPool := { s with calls := s.calls.map PoolCall.notifyIdle }

def promoteScheduledJobs (s : ThreadPool) : ThreadPool :=
  let due := s.schedQueue.takeWhile fun job => job.2 ≤ s.now
  if due = [] then
    s
  else
    { s with
      taskQueue := s.taskQueue ++ due.map (PoolTask.job ∘ Prod.fst),
      taskCount := (s.taskCount + due.length) % 2 ^ 32,
      schedQueue := s.schedQueue.dropWhile fun job => job.2 ≤ s.now }.notifyAll

/-- `_try_dequeue` by the worker `i`, which has the task to run then. -/
def tryDequeue (s : ThreadPool) (i : Nat) : Option ThreadPool :=
  match s.taskQueue with
  | [] => none
  | task :: taskQueue =>
    some ({ s with
      taskQueue, taskCount := (s.taskCount + (2 ^ 32 - 1)) % 2 ^ 32,
      activeTasks := s.activeTasks + 1 }.setWorker i (.running task))

/-- A round of the inner loop of the slow path, from the lock to the wait. -/
def slowRound (s : ThreadPool) (i : Nat) : ThreadPool :=
  let s := s.promoteScheduledJobs
  match s.tryDequeue i with
  | some s => s
  | none =>
    if s.poolShutdown then
      s.setWorker i .exited
    else
      { s with sleepingCount := s.sleepingCount + 1 }.setWorker i
        (.asleep (s.schedQueue ≠ []) false)

def completeTask (s : ThreadPool) (k : Nat) : Option ThreadPool :=
  let s := { s with activeTasks := s.activeTasks - 1 }
  if s.taskQueue ≠ [] then
    s.notifyOne k
  else if s.activeTasks = 0 then
    some s.notifyIdle
  else
    some s

/-- The next step of the worker `i`. The `try_lock` of the spin loop may fail, and `k` is the worker
that a `notify_one` wakes. -/
def workerStep (s : ThreadPool) (i : Nat) (tryLock : Bool) (k : Nat) : Option ThreadPool :=
  match s.workers[i]? with
  | none => none
  | some (.spin n) => some (s.setWorker i (if 0 < s.taskCount then .grab n else .look n))
  | some (.grab n) =>
    match if tryLock then s.tryDequeue i else none with
    | some s => some s
    | none => some (s.setWorker i (.look n))
  | some (.look n) =>
    if s.poolShutdown then
      some (s.setWorker i .exited)
    else
      some (s.setWorker i (if n + 1 < SPIN_ITERS then .spin (n + 1) else .slow))
  | some .slow => some (s.slowRound i)
  | some (.asleep timed _) =>
    if timed ∨ s.poolShutdown ∨ s.taskQueue ≠ [] ∨ s.schedQueue ≠ [] then
      let s := { s with sleepingCount := s.sleepingCount - 1 }.setWorker i .slow
      if s.poolShutdown ∧ s.taskQueue = [] then
        some (s.setWorker i .exited)
      else
        some (s.slowRound i)
    else
      -- the predicate of the wait does not hold
      some (s.setWorker i (.asleep false false))
  | some (.running task) =>
    some ({ s with executed := s.executed ++ [task] }.setWorker i .completing)
  | some .completing => (s.setWorker i (.spin 0)).completeTask k
  | some .exited => none

/-- The next step of a call. -/
def callStep (s : ThreadPool) (j k : Nat) : Option ThreadPool :=
  match s.calls[j]? with
  | none => none
  | some (.submitLock n) =>
    if s.poolShutdown then
      some (s.setCall j .done)
    else
      some ({ s with
        taskQueue := s.taskQueue ++ [PoolTask.submitted n],
        accepted := s.accepted ++ [n] }.setCall j .submitCount)
  | some .submitCount =>
    some ({ s with taskCount := (s.taskCount + 1) % 2 ^ 32 }.setCall j .submitCheck)
  | some .submitCheck =>
    some (s.setCall j (if 0 < s.sleepingCount then .submitNotify else .done))
  | some .submitNotify => (s.setCall j .done).notifyOne k
  | some (.inline n) =>
    some ({ s with executed := s.executed ++ [PoolTask.submitted n] }.setCall j .done)
  | some (.scheduleLock id when) =>
    if s.poolShutdown then
      some (s.setCall j .done)
    else
      some ({ s with
        workers := if s.workers = [] then [.spin 0] else s.workers,
        schedQueue := s.schedQueue.orderedInsert (fun a b => a.2 ≤ b.2) (id, when) }.setCall j
          .scheduleNotify)
  | some .scheduleNotify => (s.setCall j .done).notifyOne k
  | some .idleLock =>
    let s := s.promoteScheduledJobs
    if s.taskQueue = [] ∧ s.activeTasks = 0 then
      some (s.setCall j .done)
    else
      some (s.setCall j (.idleWait false))
  | some (.idleWait _) => some (s.setCall j .idleLock)
  | some .stopNotify => some (s.notifyAll.setCall j .stopJoin)
  | some .stopJoin =>
    if s.workers.all (· = .exited) then
      some ({ s with workers := [] }.setCall j .done)
    else
      none
  | some .done => none

/-- What happens: a function is called, time goes by, or a call or a worker takes its next step. -/
inductive Action where
  | submitTask (n : Nat)
  | scheduleAfter (delay : Nat)
  | cancelJob (id : Nat)
  | waitIdle
  | stopPool
  | tick
  | call (j k : Nat)
  | worker (i : Nat) (tryLock : Bool) (k : Nat)
  deriving DecidableEq, Repr

def step (s : ThreadPool) : Action → Option ThreadPool
  | .submitTask n =>
    if s.workers = [] then
      some ({ s with accepted := s.accepted ++ [n] }.addCall (.inline n))
    else
      some (s.addCall (.submitLock n))
  | .scheduleAfter delay =>
    some ({ s with nextJobId := s.nextJobId + 1 }.addCall
      (.scheduleLock s.nextJobId (s.now + delay)))
  | .cancelJob id =>
    some { s with
      schedQueue := s.schedQueue.filter fun job => job.1 ≠ id,
      cancelled := s.cancelled ++ (s.schedQueue.filter fun job => job.1 = id).map Prod.fst }
  | .waitIdle => some (s.addCall .idleLock)
  | .stopPool => some ({ s with poolShutdown := true }.addCall .stopNotify)
  | .tick => some { s with now := s.now + 1 }
  | .call j k => s.callStep j k
  | .worker i tryLock k => s.workerStep i tryLock k

def run (s : ThreadPool) (acts : List Action) : Option ThreadPool := acts.foldlM step s

end ThreadPool
end Leaves
