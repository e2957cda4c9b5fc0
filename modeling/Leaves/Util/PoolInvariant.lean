import Leaves.Util.ThreadPool
import Mathlib.Data.List.Count

/-!
The invariant of the thread pool: every task and every job is in one place, and nobody sleeps
through a task. Here it is kept by the steps of the workers.
-/

namespace Leaves

namespace PoolWorker

/-- It has no task, does not sleep and is still there. -/
def plain : PoolWorker → Bool
  | .spin _ | .grab _ | .look _ | .slow => true
  | _ => false

def sleeping : PoolWorker → Bool
  | .asleep _ _ => true
  | _ => false

/-- It is counted in `_active_tasks`. -/
def active : PoolWorker → Bool
  | .running _ | .completing => true
  | _ => false

def runs (t : PoolTask) : PoolWorker → Bool
  | .running t' => t' = t
  | _ => false

variable {w : PoolWorker} {t : PoolTask}

@[simp] theorem sleeping_notify : w.notify.sleeping = w.sleeping := by cases w <;> rfl

@[simp] theorem active_notify : w.notify.active = w.active := by cases w <;> rfl

@[simp] theorem runs_notify : w.notify.runs t = w.runs t := by cases w <;> rfl

theorem waiting_notify : w.notify.waiting = false := by cases w <;> rfl

theorem notify_exited : w.notify = .exited ↔ w = .exited := by cases w <;> simp [notify]

theorem sleeping_plain (h : w.plain = true) : w.sleeping = false := by
  cases w <;> simp_all [plain, sleeping]

theorem active_plain (h : w.plain = true) : w.active = false := by
  cases w <;> simp_all [plain, active]

theorem runs_plain (h : w.plain = true) : w.runs t = false := by
  cases w <;> simp_all [plain, runs]

/-- It can go on without being notified. -/
def live (w : PoolWorker) : Prop := w.waiting = false ∧ w ≠ .exited

theorem live_plain (h : w.plain = true) : w.live := by
  cases w <;> simp_all [plain, live, waiting]

theorem live_active (h : w.active = true) : w.live := by
  cases w <;> simp_all [active, live, waiting]

end PoolWorker

namespace PoolCall

def inlines (t : PoolTask) : PoolCall → Bool
  | .inline n => t = .submitted n
  | _ => false

def schedules (id : Nat) : PoolCall → Bool
  | .scheduleLock id' _ => id' = id
  | _ => false

/-- It has put a task into the queue, and the check for sleeping workers is not over. -/
def submitting : PoolCall → Bool
  | .submitCount | .submitCheck | .submitNotify => true
  | _ => false

end PoolCall

/-- How a count changes with one element of a list. -/
theorem countP_set {α : Type} {l : List α} {i : Nat} {a : α} (h : l[i]? = some a) (b : α)
    (p : α → Bool) : (l.set i b).countP p + (if p a then 1 else 0) =
      l.countP p + if p b then 1 else 0 := by
  induction l generalizing i with
  | nil => simp at h
  | cons c l ih =>
    cases i with
    | zero =>
      rw [List.getElem?_cons_zero, Option.some.injEq] at h
      subst h
      rw [List.set_cons_zero, List.countP_cons, List.countP_cons]
      omega
    | succ i =>
      rw [List.getElem?_cons_succ] at h
      rw [List.set_cons_succ, List.countP_cons, List.countP_cons]
      have hrest := ih h
      omega

theorem countP_set_same {α : Type} {l : List α} {i : Nat} {a b : α} (h : l[i]? = some a)
    {p : α → Bool} (heq : p a = p b) : (l.set i b).countP p = l.countP p := by
  have hset := countP_set h b p
  rw [heq] at hset
  omega

theorem mem_set_self {α : Type} {l : List α} {i : Nat} {a : α} (h : l[i]? = some a) (b : α) :
    b ∈ l.set i b := by
  have hlt := (List.getElem?_eq_some_iff.mp h).1
  exact List.mem_set hlt b

namespace ThreadPool

/-- How often a task has been executed, is being executed or is in the queue. -/
def spread (s : ThreadPool) (t : PoolTask) : Nat :=
  s.executed.count t + s.workers.countP (PoolWorker.runs t) + s.calls.countP (PoolCall.inlines t) +
    s.taskQueue.count t

/-- How often the id of a job is in use. -/
def jobSpread (s : ThreadPool) (id : Nat) : Nat :=
  s.spread (.job id) + s.schedQueue.countP (·.1 = id) + s.calls.countP (PoolCall.schedules id) +
    s.cancelled.count id

/-- The accounts of the pool: every accepted task and every job is in one place, and the counters
are right. -/
structure Counts (s : ThreadPool) : Prop where
  once : ∀ n, s.spread (.submitted n) = s.accepted.count n
  jobs : ∀ id, s.jobSpread id ≤ 1
  fresh : ∀ id, s.nextJobId ≤ id → s.jobSpread id = 0
  active : s.activeTasks = s.workers.countP PoolWorker.active
  sleeping : s.sleepingCount = s.workers.countP PoolWorker.sleeping

/-- Nobody sleeps through a task. -/
structure Wakeful (s : ThreadPool) : Prop where
  present : s.poolShutdown = false → ∀ w ∈ s.workers, w ≠ .exited
  staffed : s.poolShutdown = false →
    s.taskQueue ≠ [] ∨ s.schedQueue ≠ [] ∨ (∃ n, .submitLock n ∈ s.calls) → s.workers ≠ []
  awake : s.poolShutdown = false → s.taskQueue ≠ [] → (∀ w ∈ s.workers, w.waiting = true) →
    ∃ c ∈ s.calls, c.submitting = true
  woken : s.poolShutdown = true → .stopNotify ∈ s.calls ∨ ∀ w ∈ s.workers, w.waiting = false
  drained : s.poolShutdown = true → (∀ w ∈ s.workers, w = .exited) → ∀ n, .submitted n ∉ s.taskQueue

structure Inv (s : ThreadPool) : Prop where
  counts : s.Counts
  wakeful : s.Wakeful

variable {s s' : ThreadPool} {i j k n : Nat} {w w' : PoolWorker} {c c' : PoolCall} {t : PoolTask}

theorem inv_init (n : Nat) : (init n).Inv := by
  have hworkers : ∀ w ∈ (init n).workers, w = .spin 0 := fun w hw => List.eq_of_mem_replicate hw
  have hcount : ∀ p : PoolWorker → Bool, p (.spin 0) = false → (init n).workers.countP p = 0 := by
    intro p hp
    rw [List.countP_eq_zero]
    intro w hw
    rw [hworkers w hw, hp]
    exact Bool.false_ne_true
  constructor
  . constructor
    . intro m
      unfold spread
      rw [hcount _ rfl]
      rfl
    . intro id
      unfold jobSpread spread
      rw [hcount _ rfl]
      exact Nat.zero_le 1
    . intro id _
      unfold jobSpread spread
      rw [hcount _ rfl]
      rfl
    . rw [hcount _ rfl]
      rfl
    . rw [hcount _ rfl]
      rfl
  . constructor
    . intro _ w hw
      rw [hworkers w hw]
      exact PoolWorker.noConfusion
    . intro _ hor
      simp [init] at hor
    . intro _ hne
      exact absurd rfl hne
    . intro h
      cases h
    . intro h
      cases h

/-- A worker that can go on without being notified keeps the pool awake. -/
theorem Wakeful.live (h : s.Wakeful) (hi : s.workers[i]? = some w) (hlive : w'.live)
    (hworkers : s'.workers = s.workers.set i w') (hshutdown : s'.poolShutdown = s.poolShutdown)
    (hcalls : .stopNotify ∈ s.calls → .stopNotify ∈ s'.calls) : s'.Wakeful := by
  have hself : w' ∈ s'.workers := by
    rw [hworkers]
    exact mem_set_self hi w'
  have hold : ∀ v ∈ s'.workers, v ∈ s.workers ∨ v = w' := by
    intro v hv
    rw [hworkers] at hv
    exact List.mem_or_eq_of_mem_set hv
  constructor
  . intro hrun v hv
    rw [hshutdown] at hrun
    rcases hold v hv with hv | rfl
    . exact h.present hrun v hv
    . exact hlive.2
  . intro _ _
    exact List.ne_nil_of_mem hself
  . intro _ _ hall
    have hwait := hall w' hself
    rw [hlive.1] at hwait
    cases hwait
  . intro hstop
    rw [hshutdown] at hstop
    apply (h.woken hstop).imp hcalls
    intro hall v hv
    rcases hold v hv with hv | rfl
    . exact hall v hv
    . exact hlive.1
  . intro _ hall
    exact absurd (hall w' hself) hlive.2

/-- The accounts are the same if every task and every job is in as many places as before. -/
theorem Counts.congr (h : s.Counts) (hspread : ∀ t, s'.spread t = s.spread t)
    (hjobs : ∀ id, s'.jobSpread id = s.jobSpread id) (haccepted : s'.accepted = s.accepted)
    (hnext : s'.nextJobId = s.nextJobId)
    (hactive : s'.activeTasks = s'.workers.countP PoolWorker.active)
    (hsleeping : s'.sleepingCount = s'.workers.countP PoolWorker.sleeping) : s'.Counts where
  once := by
    intro m
    rw [hspread, haccepted]
    exact h.once m
  jobs := by
    intro id
    rw [hjobs]
    exact h.jobs id
  fresh := by
    intro id hid
    rw [hnext] at hid
    rw [hjobs]
    exact h.fresh id hid
  active := hactive
  sleeping := hsleeping

/-- A worker that has no task before and after has no influence on the accounts but the counters. -/
theorem Counts.counters (h : s.Counts) (hi : s.workers[i]? = some w)
    (hruns : ∀ t, w.runs t = w'.runs t) {active sleeping : Nat}
    (hactive : active = (s.workers.set i w').countP PoolWorker.active)
    (hsleeping : sleeping = (s.workers.set i w').countP PoolWorker.sleeping) :
    ({ s with activeTasks := active, sleepingCount := sleeping }.setWorker i w').Counts := by
  have hspread : ∀ t, ({ s with
      activeTasks := active, sleepingCount := sleeping }.setWorker i w').spread t = s.spread t := by
    intro t
    unfold spread ThreadPool.setWorker
    dsimp only
    rw [countP_set_same hi (hruns t)]
  have hjobs : ∀ id, ({ s with
      activeTasks := active, sleepingCount := sleeping }.setWorker i w').jobSpread id =
        s.jobSpread id := by
    intro id
    unfold jobSpread
    rw [hspread]
    rfl
  exact h.congr hspread hjobs rfl rfl hactive hsleeping

/-- Nor on the counters, as long as it does not take or end a task, fall asleep or wake. -/
theorem Counts.setWorker (h : s.Counts) (hi : s.workers[i]? = some w)
    (hruns : ∀ t, w.runs t = w'.runs t) (hactive : w.active = w'.active)
    (hsleeping : w.sleeping = w'.sleeping) : (s.setWorker i w').Counts := by
  apply h.counters hi hruns
  . rw [countP_set_same hi hactive]
    exact h.active
  . rw [countP_set_same hi hsleeping]
    exact h.sleeping

/-- The accounts do not depend on where a call is, as long as it has no task and no job. -/
theorem Counts.setCall (h : s.Counts) (hj : s.calls[j]? = some c)
    (hinlines : ∀ t, c.inlines t = c'.inlines t)
    (hschedules : ∀ id, c.schedules id = c'.schedules id) : (s.setCall j c').Counts := by
  have hspread : ∀ t, (s.setCall j c').spread t = s.spread t := by
    intro t
    unfold spread ThreadPool.setCall
    dsimp only
    rw [countP_set_same hj (hinlines t)]
  have hjobs : ∀ id, (s.setCall j c').jobSpread id = s.jobSpread id := by
    intro id
    unfold jobSpread
    rw [hspread]
    unfold ThreadPool.setCall
    dsimp only
    rw [countP_set_same hj (hschedules id)]
  apply h.congr hspread hjobs rfl rfl
  . exact h.active
  . exact h.sleeping

theorem Counts.notifyAll (h : s.Counts) : s.notifyAll.Counts := by
  have hcount : ∀ p : PoolWorker → Bool, (∀ w, p w.notify = p w) →
      s.notifyAll.workers.countP p = s.workers.countP p := by
    intro p hp
    unfold ThreadPool.notifyAll
    dsimp only
    rw [List.countP_map]
    congr 1
    funext w
    exact hp w
  have hspread : ∀ t, s.notifyAll.spread t = s.spread t := by
    intro t
    unfold spread
    rw [hcount _ fun w => PoolWorker.runs_notify]
    rfl
  have hjobs : ∀ id, s.notifyAll.jobSpread id = s.jobSpread id := by
    intro id
    unfold jobSpread
    rw [hspread]
    rfl
  apply h.congr hspread hjobs rfl rfl
  . rw [hcount _ fun w => PoolWorker.active_notify]
    exact h.active
  . rw [hcount _ fun w => PoolWorker.sleeping_notify]
    exact h.sleeping

theorem Counts.notifyOne (h : s.Counts) (hnotify : s.notifyOne k = some s') : s'.Counts := by
  unfold ThreadPool.notifyOne at hnotify
  split at hnotify
  next hk =>
    cases hnotify
    exact h.setWorker hk (fun _ => rfl) rfl rfl
  next =>
    split at hnotify
    . cases hnotify
    . cases hnotify
      exact h

theorem Counts.promote (h : s.Counts) : s.promoteScheduledJobs.Counts := by
  unfold promoteScheduledJobs
  dsimp only
  split
  next => exact h
  next =>
    apply Counts.notifyAll
    generalize hdue : s.schedQueue.takeWhile (fun job => job.2 ≤ s.now) = due
    have hsplit : due ++ s.schedQueue.dropWhile (fun job => job.2 ≤ s.now) = s.schedQueue := by
      rw [← hdue]
      exact List.takeWhile_append_dropWhile
    have hsubmitted : ∀ m, (due.map (PoolTask.job ∘ Prod.fst)).count (.submitted m) = 0 := by
      intro m
      rw [List.count_eq_zero]
      simp
    have hjob : ∀ id, (due.map (PoolTask.job ∘ Prod.fst)).count (.job id) =
        due.countP (·.1 = id) := by
      intro id
      rw [List.count, List.countP_map]
      congr 1
      funext job
      rw [Bool.eq_iff_iff]
      simp
    have hcount : ∀ id, due.countP (fun job => job.1 = id) +
        (s.schedQueue.dropWhile fun job => job.2 ≤ s.now).countP (fun job => job.1 = id) =
          s.schedQueue.countP fun job => job.1 = id := by
      intro id
      rw [← List.countP_append, hsplit]
    constructor
    . intro m
      have honce := h.once m
      unfold spread at honce ⊢
      dsimp only
      rw [List.count_append, hsubmitted]
      exact honce
    . intro id
      have hjobs := h.jobs id
      have hid := hcount id
      unfold jobSpread spread at hjobs ⊢
      dsimp only
      rw [List.count_append, hjob]
      omega
    . intro id hfresh
      have hjobs := h.fresh id hfresh
      have hid := hcount id
      unfold jobSpread spread at hjobs ⊢
      dsimp only
      rw [List.count_append, hjob]
      omega
    . exact h.active
    . exact h.sleeping

/-- A promotion wakes everyone, and the tasks it puts into the queue are jobs. -/
theorem Wakeful.promote (h : s.Wakeful) : s.promoteScheduledJobs.Wakeful := by
  unfold promoteScheduledJobs
  dsimp only
  split
  next => exact h
  next hdue =>
    have hsched : s.schedQueue ≠ [] := by
      intro hnil
      rw [hnil] at hdue
      exact hdue rfl
    have hmem : ∀ v ∈ s.workers.map PoolWorker.notify, ∃ w ∈ s.workers, w.notify = v :=
      fun v hv => List.mem_map.mp hv
    constructor
    . intro hrun v hv
      obtain ⟨w, hw, rfl⟩ := hmem v hv
      rw [Ne, PoolWorker.notify_exited]
      exact h.present hrun w hw
    . intro hrun _ hnil
      exact h.staffed hrun (Or.inr (Or.inl hsched)) (List.map_eq_nil_iff.mp hnil)
    . intro hrun _ hall
      exfalso
      obtain ⟨w, hw⟩ := List.exists_mem_of_ne_nil _ (h.staffed hrun (Or.inr (Or.inl hsched)))
      have hwait := hall w.notify (List.mem_map_of_mem hw)
      rw [PoolWorker.waiting_notify] at hwait
      cases hwait
    . intro _
      right
      intro v hv
      obtain ⟨w, -, rfl⟩ := hmem v hv
      exact PoolWorker.waiting_notify
    . intro hstop hall m hmem'
      have hexited : ∀ w ∈ s.workers, w = .exited := by
        intro w hw
        exact PoolWorker.notify_exited.mp (hall w.notify (List.mem_map_of_mem hw))
      unfold ThreadPool.notifyAll at hmem'
      dsimp only at hmem'
      rw [List.mem_append] at hmem'
      rcases hmem' with hmem' | hmem'
      . exact h.drained hstop hexited m hmem'
      . simp at hmem'

theorem Inv.promote (h : s.Inv) : s.promoteScheduledJobs.Inv :=
  ⟨h.counts.promote, h.wakeful.promote⟩

/-- The worker `i` has come to a place where it has no task and is awake. -/
theorem Inv.setPlain (h : s.Inv) (hi : s.workers[i]? = some w) (hplain : w.plain = true)
    (hplain' : w'.plain = true) : (s.setWorker i w').Inv := by
  constructor
  . apply h.counts.setWorker hi
    . intro t
      rw [PoolWorker.runs_plain hplain, PoolWorker.runs_plain hplain']
    . rw [PoolWorker.active_plain hplain, PoolWorker.active_plain hplain']
    . rw [PoolWorker.sleeping_plain hplain, PoolWorker.sleeping_plain hplain']
  . exact h.wakeful.live hi (PoolWorker.live_plain hplain') rfl rfl id

theorem Inv.tryDequeue (h : s.Inv) (hi : s.workers[i]? = some w) (hplain : w.plain = true)
    (htry : s.tryDequeue i = some s') : s'.Inv := by
  unfold ThreadPool.tryDequeue at htry
  split at htry
  . cases htry
  next task taskQueue hqueue =>
    cases htry
    have hspread : ∀ t, ({ s with
        taskQueue, taskCount := (s.taskCount + (2 ^ 32 - 1)) % 2 ^ 32,
        activeTasks := s.activeTasks + 1 }.setWorker i (.running task)).spread t = s.spread t := by
      intro t
      have hset := countP_set hi (.running task) (PoolWorker.runs t)
      rw [PoolWorker.runs_plain hplain] at hset
      unfold spread ThreadPool.setWorker
      dsimp only
      rw [hqueue, List.count_cons]
      by_cases heq : task = t
      . simp [PoolWorker.runs, heq] at hset ⊢
        omega
      . simp [PoolWorker.runs, heq] at hset ⊢
        omega
    have hjobs : ∀ id, ({ s with
        taskQueue, taskCount := (s.taskCount + (2 ^ 32 - 1)) % 2 ^ 32,
        activeTasks := s.activeTasks + 1 }.setWorker i (.running task)).jobSpread id =
          s.jobSpread id := by
      intro id
      unfold jobSpread
      rw [hspread]
      rfl
    have hactive := countP_set hi (.running task) PoolWorker.active
    rw [PoolWorker.active_plain hplain] at hactive
    have hsleeping := countP_set hi (.running task) PoolWorker.sleeping
    rw [PoolWorker.sleeping_plain hplain] at hsleeping
    constructor
    . apply h.counts.congr hspread hjobs rfl rfl
      . have hold := h.counts.active
        unfold ThreadPool.setWorker
        dsimp only
        simp only [PoolWorker.active, if_true, Bool.false_eq_true, if_false] at hactive
        omega
      . have hold := h.counts.sleeping
        unfold ThreadPool.setWorker
        dsimp only
        simp only [PoolWorker.sleeping, Bool.false_eq_true, if_false] at hsleeping
        omega
    . exact h.wakeful.live hi (PoolWorker.live_active rfl) rfl rfl id

/-- The worker `i` leaves. Nothing that was submitted is in the queue, or someone else is there. -/
theorem Inv.exit (h : s.Inv) (hi : s.workers[i]? = some w) (hplain : w.plain = true)
    (hstop : s.poolShutdown = true) (hdrained : (∀ n, .submitted n ∉ s.taskQueue) ∨
      ∃ i' v, i' ≠ i ∧ s.workers[i']? = some v ∧ v ≠ .exited) :
    (s.setWorker i .exited).Inv := by
  constructor
  . apply h.counts.setWorker hi
    . intro t
      rw [PoolWorker.runs_plain hplain]
      rfl
    . rw [PoolWorker.active_plain hplain]
      rfl
    . rw [PoolWorker.sleeping_plain hplain]
      rfl
  . constructor
    . intro hrun
      exact absurd (hstop.symm.trans hrun) (by decide)
    . intro hrun
      exact absurd (hstop.symm.trans hrun) (by decide)
    . intro hrun
      exact absurd (hstop.symm.trans hrun) (by decide)
    . intro _
      apply (h.wakeful.woken hstop).imp_right
      intro hall v hv
      rcases List.mem_or_eq_of_mem_set hv with hv | rfl
      . exact hall v hv
      . rfl
    . intro _ hall
      rcases hdrained with hnone | ⟨i', v, hne, hi', hv⟩
      . exact hnone
      . exfalso
        apply hv
        apply hall v
        unfold ThreadPool.setWorker
        dsimp only
        rw [List.mem_iff_getElem?]
        exact ⟨i', by rw [List.getElem?_set_ne hne.symm]; exact hi'⟩

/-- The worker `i` falls asleep. There is nothing to do. -/
theorem Inv.sleep (h : s.Inv) (hi : s.workers[i]? = some w) (hplain : w.plain = true)
    (hrun : s.poolShutdown = false) (hqueue : s.taskQueue = []) (timed : Bool) :
    ({ s with sleepingCount := s.sleepingCount + 1 }.setWorker i (.asleep timed false)).Inv := by
  constructor
  . apply h.counts.counters hi
    . intro t
      rw [PoolWorker.runs_plain hplain]
      rfl
    . rw [countP_set_same hi (PoolWorker.active_plain hplain)]
      exact h.counts.active
    . have hold := h.counts.sleeping
      have hset := countP_set hi (.asleep timed false) PoolWorker.sleeping
      rw [PoolWorker.sleeping_plain hplain] at hset
      simp only [PoolWorker.sleeping, if_true, Bool.false_eq_true, if_false] at hset
      omega
  . constructor
    . intro _ v hv
      rcases List.mem_or_eq_of_mem_set hv with hv | rfl
      . exact h.wakeful.present hrun v hv
      . exact PoolWorker.noConfusion
    . intro _ _
      exact List.ne_nil_of_mem (mem_set_self hi _)
    . intro _ hne
      exact absurd hqueue hne
    . intro hstop
      exact absurd (hrun.symm.trans hstop) (by decide)
    . intro hstop
      exact absurd (hrun.symm.trans hstop) (by decide)

theorem promote_get (hi : s.workers[i]? = some w) (hplain : w.plain = true) :
    s.promoteScheduledJobs.workers[i]? = some w := by
  have hnotify : w.notify = w := by cases w <;> simp_all [PoolWorker.plain, PoolWorker.notify]
  unfold promoteScheduledJobs
  dsimp only
  split
  . exact hi
  . unfold ThreadPool.notifyAll
    dsimp only
    rw [List.getElem?_map, hi, Option.map_some, hnotify]

theorem Inv.slowRound (h : s.Inv) (hi : s.workers[i]? = some w) (hplain : w.plain = true) :
    (s.slowRound i).Inv := by
  have hpromote := h.promote
  have hget := promote_get hi hplain
  unfold ThreadPool.slowRound
  dsimp only
  split
  next s' htry => exact hpromote.tryDequeue hget hplain htry
  next htry =>
    have hqueue : s.promoteScheduledJobs.taskQueue = [] := by
      unfold ThreadPool.tryDequeue at htry
      split at htry
      next hnil => exact hnil
      next => cases htry
    split
    next hstop =>
      apply hpromote.exit hget hplain hstop
      left
      rw [hqueue]
      exact fun n => List.not_mem_nil
    next hrun => exact hpromote.sleep hget hplain (by simpa using hrun) hqueue _

/-- The worker `i` wakes. -/
theorem Inv.wake {timed notified : Bool} (h : s.Inv)
    (hi : s.workers[i]? = some (.asleep timed notified)) :
    ({ s with sleepingCount := s.sleepingCount - 1 }.setWorker i .slow).Inv := by
  constructor
  . apply h.counts.counters hi
    . exact fun _ => rfl
    . rw [countP_set_same hi (by rfl)]
      exact h.counts.active
    . have hold := h.counts.sleeping
      have hset := countP_set hi .slow PoolWorker.sleeping
      simp only [PoolWorker.sleeping, if_true, Bool.false_eq_true, if_false] at hset
      omega
  . exact h.wakeful.live hi (PoolWorker.live_plain rfl) rfl rfl id

/-- The worker `i` has woken for nothing. -/
theorem Inv.resleep {notified : Bool} (h : s.Inv)
    (hi : s.workers[i]? = some (.asleep false notified)) (hrun : s.poolShutdown = false)
    (hqueue : s.taskQueue = []) : (s.setWorker i (.asleep false false)).Inv := by
  constructor
  . exact h.counts.setWorker hi (fun _ => rfl) rfl rfl
  . constructor
    . intro _ v hv
      rcases List.mem_or_eq_of_mem_set hv with hv | rfl
      . exact h.wakeful.present hrun v hv
      . exact PoolWorker.noConfusion
    . intro _ _
      exact List.ne_nil_of_mem (mem_set_self hi _)
    . intro _ hne
      exact absurd hqueue hne
    . intro hstop
      exact absurd (hrun.symm.trans hstop) (by decide)
    . intro hstop
      exact absurd (hrun.symm.trans hstop) (by decide)

/-- The task is over. -/
theorem Inv.finish (h : s.Inv) (hi : s.workers[i]? = some (.running t)) :
    ({ s with executed := s.executed ++ [t] }.setWorker i .completing).Inv := by
  have hspread : ∀ u, ({ s with executed := s.executed ++ [t] }.setWorker i .completing).spread u =
      s.spread u := by
    intro u
    have hset := countP_set hi .completing (PoolWorker.runs u)
    unfold spread ThreadPool.setWorker
    dsimp only
    rw [List.count_append, List.count_singleton]
    by_cases heq : t = u
    . simp [PoolWorker.runs, heq] at hset ⊢
      omega
    . simp [PoolWorker.runs, heq] at hset ⊢
      omega
  have hjobs : ∀ id, ({ s with executed := s.executed ++ [t] }.setWorker i .completing).jobSpread
      id = s.jobSpread id := by
    intro id
    unfold jobSpread
    rw [hspread]
    rfl
  constructor
  . apply h.counts.congr hspread hjobs rfl rfl
    . unfold ThreadPool.setWorker
      dsimp only
      rw [countP_set_same hi (by rfl)]
      exact h.counts.active
    . unfold ThreadPool.setWorker
      dsimp only
      rw [countP_set_same hi (by rfl)]
      exact h.counts.sleeping
  . exact h.wakeful.live hi (PoolWorker.live_active rfl) rfl rfl id

/-- One of the waiting workers is notified. -/
theorem Inv.notifyOne (h : s.Inv) (hnotify : s.notifyOne k = some s') : s'.Inv := by
  refine ⟨h.counts.notifyOne hnotify, ?_⟩
  unfold ThreadPool.notifyOne at hnotify
  split at hnotify
  next hk =>
    cases hnotify
    exact h.wakeful.live hk ⟨rfl, PoolWorker.noConfusion⟩ rfl rfl id
  next =>
    split at hnotify
    . cases hnotify
    . cases hnotify
      exact h.wakeful

theorem Inv.notifyIdle (h : s.Inv) : s.notifyIdle.Inv := by
  have hcount : ∀ p : PoolCall → Bool, (∀ c, p c.notifyIdle = p c) →
      s.notifyIdle.calls.countP p = s.calls.countP p := by
    intro p hp
    unfold ThreadPool.notifyIdle
    dsimp only
    rw [List.countP_map]
    congr 1
    funext c
    exact hp c
  have hspread : ∀ u, s.notifyIdle.spread u = s.spread u := by
    intro u
    unfold spread
    rw [hcount]
    . rfl
    . intro c
      cases c <;> rfl
  have hjobs : ∀ id, s.notifyIdle.jobSpread id = s.jobSpread id := by
    intro id
    unfold jobSpread
    rw [hspread, hcount]
    . rfl
    . intro c
      cases c <;> rfl
  have hmem : ∀ c ∈ s.calls, c.notifyIdle ∈ s.notifyIdle.calls := fun c hc => List.mem_map_of_mem hc
  constructor
  . apply h.counts.congr hspread hjobs rfl rfl
    . exact h.counts.active
    . exact h.counts.sleeping
  . constructor
    . exact h.wakeful.present
    . intro hrun hor
      apply h.wakeful.staffed hrun
      apply hor.imp_right
      apply Or.imp_right
      rintro ⟨m, hm⟩
      refine ⟨m, ?_⟩
      obtain ⟨c, hc, heq⟩ := List.mem_map.mp hm
      cases c <;> simp_all [PoolCall.notifyIdle]
    . intro hrun hne hall
      obtain ⟨c, hc, hsubmit⟩ := h.wakeful.awake hrun hne hall
      refine ⟨c.notifyIdle, hmem c hc, ?_⟩
      cases c <;> simp_all [PoolCall.notifyIdle, PoolCall.submitting]
    . intro hstop
      exact (h.wakeful.woken hstop).imp_left fun hc => hmem .stopNotify hc
    . exact h.wakeful.drained

/-- The worker `i` has called `_complete_task`. -/
theorem Inv.complete (h : s.Inv) (hi : s.workers[i]? = some .completing)
    (hstep : (s.setWorker i (.spin 0)).completeTask k = some s') : s'.Inv := by
  have hbase : ({ s with activeTasks := s.activeTasks - 1 }.setWorker i (.spin 0)).Inv := by
    constructor
    . apply h.counts.counters hi
      . exact fun _ => rfl
      . have hold := h.counts.active
        have hset := countP_set hi (.spin 0) PoolWorker.active
        simp only [PoolWorker.active, if_true, Bool.false_eq_true, if_false] at hset
        omega
      . rw [countP_set_same hi (by rfl)]
        exact h.counts.sleeping
    . exact h.wakeful.live hi (PoolWorker.live_plain rfl) rfl rfl id
  unfold ThreadPool.completeTask at hstep
  dsimp only at hstep
  split at hstep
  next => exact hbase.notifyOne hstep
  next =>
    split at hstep
    . cases hstep
      exact hbase.notifyIdle
    . cases hstep
      exact hbase

end ThreadPool
end Leaves
