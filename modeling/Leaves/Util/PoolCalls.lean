import Leaves.Util.PoolInvariant

/-!
What holds in every run of the thread pool, under any order of the steps of callers and workers.
-/

namespace Leaves
namespace ThreadPool

variable {s s' : ThreadPool} {i j k n : Nat} {w w' : PoolWorker} {c c' : PoolCall} {t : PoolTask}

/-- The calls that are left when one of them goes on. -/
theorem mem_setCall (c' : PoolCall) (hj : s.calls[j]? = some c) {d : PoolCall} (hd : d ∈ s.calls) :
    d ∈ s.calls.set j c' ∨ d = c := by
  obtain ⟨j', hj'⟩ := List.mem_iff_getElem?.mp hd
  by_cases heq : j = j'
  . right
    rw [← heq, hj, Option.some.injEq] at hj'
    exact hj'.symm
  . left
    rw [List.mem_iff_getElem?]
    exact ⟨j', by rw [List.getElem?_set_ne heq]; exact hj'⟩

theorem Wakeful.setCall (h : s.Wakeful) (hj : s.calls[j]? = some c) (hstop : c ≠ .stopNotify)
    (hlock : ∀ n, c' ≠ .submitLock n) (hsubmit : c.submitting = true → c'.submitting = true ∨
      ∀ w ∈ s.workers, w.waiting = false) : (s.setCall j c').Wakeful := by
  constructor
  . exact h.present
  . intro hrun hor
    apply h.staffed hrun
    apply hor.imp_right
    apply Or.imp_right
    rintro ⟨m, hm⟩
    refine ⟨m, ?_⟩
    exact (List.mem_or_eq_of_mem_set hm).resolve_right fun heq => hlock m heq.symm
  . intro hrun hne hall
    obtain ⟨d, hd, hdsubmit⟩ := h.awake hrun hne hall
    rcases mem_setCall c' hj hd with hmem | rfl
    . exact ⟨d, hmem, hdsubmit⟩
    . rcases hsubmit hdsubmit with hc' | hwake
      . exact ⟨c', mem_set_self hj c', hc'⟩
      . obtain ⟨w, hw⟩ := List.exists_mem_of_ne_nil _ (h.staffed hrun (Or.inl hne))
        have hwait := hall w hw
        rw [hwake w hw] at hwait
        cases hwait
  . intro hshut
    apply (h.woken hshut).imp_left
    intro hmem
    exact (mem_setCall _ hj hmem).resolve_right hstop.symm
  . exact h.drained

/-- A call without a task and without a job goes on. -/
theorem Inv.setCall (h : s.Inv) (hj : s.calls[j]? = some c)
    (hinlines : ∀ t, c.inlines t = c'.inlines t)
    (hschedules : ∀ id, c.schedules id = c'.schedules id) (hstop : c ≠ .stopNotify)
    (hlock : ∀ n, c' ≠ .submitLock n) (hsubmit : c.submitting = true → c'.submitting = true ∨
      ∀ w ∈ s.workers, w.waiting = false) : (s.setCall j c').Inv :=
  ⟨h.counts.setCall hj hinlines hschedules, h.wakeful.setCall hj hstop hlock hsubmit⟩

/-- The task of a `submit_task` goes to the queue. -/
theorem Inv.push (h : s.Inv) (hj : s.calls[j]? = some (.submitLock n))
    (hrun : s.poolShutdown = false) : ({ s with
      taskQueue := s.taskQueue ++ [PoolTask.submitted n],
      accepted := s.accepted ++ [n] }.setCall j .submitCount).Inv := by
  have hcalls : ∀ p : PoolCall → Bool, p (.submitLock n) = p .submitCount →
      (s.calls.set j .submitCount).countP p = s.calls.countP p := fun p hp => countP_set_same hj hp
  constructor
  . constructor
    . intro m
      have honce := h.counts.once m
      unfold spread ThreadPool.setCall at *
      dsimp only
      rw [hcalls _ rfl, List.count_append, List.count_append, List.count_singleton,
        List.count_singleton]
      by_cases heq : n = m
      . simp [heq]
        omega
      . simp [heq]
        omega
    . intro id
      have hjobs := h.counts.jobs id
      unfold jobSpread spread ThreadPool.setCall at *
      dsimp only
      rw [hcalls _ rfl, hcalls _ rfl, List.count_append, List.count_singleton]
      simp only [beq_iff_eq, reduceCtorEq, if_false]
      exact hjobs
    . intro id hid
      have hjobs := h.counts.fresh id hid
      unfold jobSpread spread ThreadPool.setCall at *
      dsimp only
      rw [hcalls _ rfl, hcalls _ rfl, List.count_append, List.count_singleton]
      simp only [beq_iff_eq, reduceCtorEq, if_false]
      exact hjobs
    . exact h.counts.active
    . exact h.counts.sleeping
  . constructor
    . exact h.wakeful.present
    . intro _ _
      exact h.wakeful.staffed hrun (Or.inr (Or.inr ⟨n, List.mem_of_getElem? hj⟩))
    . intro _ _ _
      exact ⟨.submitCount, mem_set_self hj _, rfl⟩
    . intro hshut
      exact absurd (hrun.symm.trans hshut) (by decide)
    . intro hshut
      exact absurd (hrun.symm.trans hshut) (by decide)

/-- The caller of `submit_task` looks for sleeping workers. -/
theorem Inv.check (h : s.Inv) (hj : s.calls[j]? = some .submitCheck) :
    (s.setCall j (if 0 < s.sleepingCount then .submitNotify else .done)).Inv := by
  split
  next =>
    exact h.setCall hj (fun _ => rfl) (fun _ => rfl) PoolCall.noConfusion
      (fun _ => PoolCall.noConfusion) fun _ => Or.inl rfl
  next hnone =>
    have hcount : s.workers.countP PoolWorker.sleeping = 0 := by
      have hsleeping := h.counts.sleeping
      omega
    rw [List.countP_eq_zero] at hcount
    refine h.setCall hj (fun _ => rfl) (fun _ => rfl) PoolCall.noConfusion
      (fun _ => PoolCall.noConfusion) ?_
    intro _
    right
    intro w hw
    have hawake := hcount w hw
    cases w <;> simp_all [PoolWorker.sleeping, PoolWorker.waiting]

/-- The notification of a `submit_task`. -/
theorem Inv.submitNotify (h : s.Inv) (hj : s.calls[j]? = some .submitNotify)
    (hnotify : (s.setCall j .done).notifyOne k = some s') : s'.Inv := by
  have hcounts : (s.setCall j .done).Counts := h.counts.setCall hj (fun _ => rfl) fun _ => rfl
  refine ⟨hcounts.notifyOne hnotify, ?_⟩
  unfold ThreadPool.notifyOne at hnotify
  split at hnotify
  next hk =>
    cases hnotify
    refine h.wakeful.live hk ⟨rfl, PoolWorker.noConfusion⟩ rfl rfl ?_
    intro hmem
    exact (mem_setCall _ hj hmem).resolve_right PoolCall.noConfusion
  next =>
    split at hnotify
    next => cases hnotify
    next hany =>
      cases hnotify
      refine h.wakeful.setCall hj PoolCall.noConfusion (fun _ => PoolCall.noConfusion) ?_
      intro _
      right
      intro w hw
      rw [Bool.not_eq_true, List.any_eq_false] at hany
      simpa using hany w hw

/-- The caller has run the task of a `submit_task` itself. -/
theorem Inv.runInline (h : s.Inv) (hj : s.calls[j]? = some (.inline n)) :
    ({ s with executed := s.executed ++ [PoolTask.submitted n] }.setCall j .done).Inv := by
  have hspread : ∀ t, ({ s with
      executed := s.executed ++ [PoolTask.submitted n] }.setCall j .done).spread t =
        s.spread t := by
    intro t
    have hset := countP_set hj .done (PoolCall.inlines t)
    unfold spread ThreadPool.setCall
    dsimp only
    rw [List.count_append, List.count_singleton]
    by_cases heq : PoolTask.submitted n = t
    . simp [PoolCall.inlines, heq.symm] at hset ⊢
      omega
    . have hne : t ≠ PoolTask.submitted n := fun h => heq h.symm
      simp [PoolCall.inlines, heq, hne] at hset ⊢
      omega
  have hjobs : ∀ id, ({ s with
      executed := s.executed ++ [PoolTask.submitted n] }.setCall j .done).jobSpread id =
        s.jobSpread id := by
    intro id
    unfold jobSpread
    rw [hspread]
    unfold ThreadPool.setCall
    dsimp only
    rw [countP_set_same hj (by rfl)]
  constructor
  . exact h.counts.congr hspread hjobs rfl rfl h.counts.active h.counts.sleeping
  . have hcall : (s.setCall j .done).Wakeful :=
      h.wakeful.setCall hj PoolCall.noConfusion (fun _ => PoolCall.noConfusion) fun hsubmit => by
        cases hsubmit
    exact ⟨hcall.present, hcall.staffed, hcall.awake, hcall.woken, hcall.drained⟩

/-- The pool is shut down, the job is dropped. -/
theorem Inv.dropJob {id when : Nat} (h : s.Inv) (hj : s.calls[j]? = some (.scheduleLock id when)) :
    (s.setCall j .done).Inv := by
  have hspread : ∀ t, (s.setCall j .done).spread t = s.spread t := by
    intro t
    unfold spread ThreadPool.setCall
    dsimp only
    rw [countP_set_same hj (by rfl)]
  have hless : ∀ id', (s.setCall j .done).jobSpread id' ≤ s.jobSpread id' := by
    intro id'
    have hset := countP_set hj .done (PoolCall.schedules id')
    unfold jobSpread
    rw [hspread]
    unfold ThreadPool.setCall
    dsimp only
    have hdone : (PoolCall.done.schedules id') = false := rfl
    rw [hdone] at hset
    simp only [Bool.false_eq_true, if_false] at hset
    omega
  constructor
  . constructor
    . intro m
      rw [hspread]
      exact h.counts.once m
    . intro id'
      exact Nat.le_trans (hless id') (h.counts.jobs id')
    . intro id' hid
      exact Nat.le_zero.mp (h.counts.fresh id' hid ▸ hless id')
    . exact h.counts.active
    . exact h.counts.sleeping
  . refine h.wakeful.setCall hj PoolCall.noConfusion (fun _ => PoolCall.noConfusion) ?_
    intro hsubmit
    cases hsubmit

/-- The job of a `schedule_after` goes to the queue, and a lazy pool gets its worker. -/
theorem Inv.schedule {id when : Nat} (h : s.Inv) (hj : s.calls[j]? = some (.scheduleLock id when))
    (hrun : s.poolShutdown = false) : ({ s with
      workers := if s.workers = [] then [.spin 0] else s.workers,
      schedQueue := s.schedQueue.orderedInsert (fun a b => a.2 ≤ b.2) (id, when) }.setCall j
        .scheduleNotify).Inv := by
  have hworkers : ∀ p : PoolWorker → Bool, p (.spin 0) = false →
      (if s.workers = [] then [.spin 0] else s.workers).countP p = s.workers.countP p := by
    intro p hp
    split
    next hnil => simp [hnil, hp]
    next => rfl
  have hmem : ∀ w ∈ (if s.workers = [] then [.spin 0] else s.workers),
      w ∈ s.workers ∨ w = .spin 0 := by
    intro w hw
    split at hw
    . exact Or.inr (List.mem_singleton.mp hw)
    . exact Or.inl hw
  have hspread : ∀ t, ({ s with
      workers := if s.workers = [] then [.spin 0] else s.workers,
      schedQueue := s.schedQueue.orderedInsert (fun a b => a.2 ≤ b.2) (id, when) }.setCall j
        .scheduleNotify).spread t = s.spread t := by
    intro t
    unfold spread ThreadPool.setCall
    dsimp only
    rw [countP_set_same hj (by rfl), hworkers _ rfl]
  have hjobs : ∀ id', ({ s with
      workers := if s.workers = [] then [.spin 0] else s.workers,
      schedQueue := s.schedQueue.orderedInsert (fun a b => a.2 ≤ b.2) (id, when) }.setCall j
        .scheduleNotify).jobSpread id' = s.jobSpread id' := by
    intro id'
    have hset := countP_set hj .scheduleNotify (PoolCall.schedules id')
    unfold jobSpread
    rw [hspread]
    unfold ThreadPool.setCall
    dsimp only
    rw [(List.perm_orderedInsert _ _ _).countP_eq, List.countP_cons]
    by_cases heq : id = id'
    . simp [PoolCall.schedules, heq] at hset ⊢
      omega
    . simp [PoolCall.schedules, heq] at hset ⊢
      omega
  have hne : (if s.workers = [] then [.spin 0] else s.workers) ≠ [] := by
    split
    . exact List.cons_ne_nil _ _
    . assumption
  constructor
  . apply h.counts.congr hspread hjobs rfl rfl
    . unfold ThreadPool.setCall
      dsimp only
      rw [hworkers _ rfl]
      exact h.counts.active
    . unfold ThreadPool.setCall
      dsimp only
      rw [hworkers _ rfl]
      exact h.counts.sleeping
  . constructor
    . intro _ w hw
      rcases hmem w hw with hw | rfl
      . exact h.wakeful.present hrun w hw
      . exact PoolWorker.noConfusion
    . intro _ _
      exact hne
    . intro _ hqueue hall
      have hstaffed := h.wakeful.staffed hrun (Or.inl hqueue)
      obtain ⟨d, hd, hsubmit⟩ := h.wakeful.awake hrun hqueue fun w hw => by
        apply hall w
        unfold ThreadPool.setCall
        dsimp only
        rw [if_neg hstaffed]
        exact hw
      rcases mem_setCall .scheduleNotify hj hd with hmem' | rfl
      . exact ⟨d, hmem', hsubmit⟩
      . cases hsubmit
    . intro hstop
      exact absurd (hrun.symm.trans hstop) (by decide)
    . intro hstop
      exact absurd (hrun.symm.trans hstop) (by decide)

/-- `stop_pool` wakes everyone. -/
theorem Inv.stopNotify (h : s.Inv) (hj : s.calls[j]? = some .stopNotify) :
    (s.notifyAll.setCall j .stopJoin).Inv := by
  constructor
  . exact h.counts.notifyAll.setCall hj (fun _ => rfl) fun _ => rfl
  . have hmem : ∀ v ∈ s.workers.map PoolWorker.notify, ∃ w ∈ s.workers, w.notify = v :=
      fun v hv => List.mem_map.mp hv
    constructor
    . intro hrun v hv
      obtain ⟨w, hw, rfl⟩ := hmem v hv
      rw [Ne, PoolWorker.notify_exited]
      exact h.wakeful.present hrun w hw
    . intro hrun hor hnil
      have hold : s.workers ≠ [] := by
        apply h.wakeful.staffed hrun
        apply hor.imp_right
        apply Or.imp_right
        rintro ⟨m, hm⟩
        exact ⟨m, (List.mem_or_eq_of_mem_set hm).resolve_right PoolCall.noConfusion⟩
      exact hold (List.map_eq_nil_iff.mp hnil)
    . intro hrun hqueue hall
      exfalso
      obtain ⟨w, hw⟩ := List.exists_mem_of_ne_nil _ (h.wakeful.staffed hrun (Or.inl hqueue))
      have hwait := hall w.notify (List.mem_map_of_mem hw)
      rw [PoolWorker.waiting_notify] at hwait
      cases hwait
    . intro _
      right
      intro v hv
      obtain ⟨w, -, rfl⟩ := hmem v hv
      exact PoolWorker.waiting_notify
    . intro hstop hall
      apply h.wakeful.drained hstop
      intro w hw
      exact PoolWorker.notify_exited.mp (hall w.notify (List.mem_map_of_mem hw))

/-- `stop_pool` has joined all workers. -/
theorem Inv.stopJoin (h : s.Inv) (hj : s.calls[j]? = some .stopJoin)
    (hall : ∀ w ∈ s.workers, w = .exited) : ({ s with workers := [] }.setCall j .done).Inv := by
  have hnone : ∀ p : PoolWorker → Bool, p .exited = false → s.workers.countP p = 0 := by
    intro p hp
    rw [List.countP_eq_zero]
    intro w hw
    rw [hall w hw, hp]
    exact Bool.false_ne_true
  have hspread : ∀ t, ({ s with workers := [] }.setCall j .done).spread t = s.spread t := by
    intro t
    unfold spread ThreadPool.setCall
    dsimp only
    rw [countP_set_same hj (by rfl), hnone _ rfl]
    rfl
  have hjobs : ∀ id, ({ s with workers := [] }.setCall j .done).jobSpread id = s.jobSpread id := by
    intro id
    unfold jobSpread
    rw [hspread]
    unfold ThreadPool.setCall
    dsimp only
    rw [countP_set_same hj (by rfl)]
  have hactive := h.counts.active
  have hsleeping := h.counts.sleeping
  rw [hnone _ rfl] at hactive hsleeping
  constructor
  . exact h.counts.congr hspread hjobs rfl rfl hactive hsleeping
  . have hempty : s.poolShutdown = false → s.workers = [] := by
      intro hrun
      by_contra hne
      obtain ⟨w, hw⟩ := List.exists_mem_of_ne_nil _ hne
      exact h.wakeful.present hrun w hw (hall w hw)
    have hstaffed : s.poolShutdown = false → ¬(s.taskQueue ≠ [] ∨ s.schedQueue ≠ [] ∨
        ∃ m, .submitLock m ∈ s.calls.set j .done) := by
      intro hrun hor
      apply h.wakeful.staffed hrun _ (hempty hrun)
      apply hor.imp_right
      apply Or.imp_right
      rintro ⟨m, hm⟩
      exact ⟨m, (List.mem_or_eq_of_mem_set hm).resolve_right PoolCall.noConfusion⟩
    constructor
    . intro _ w hw
      cases hw
    . intro hrun hor
      exact absurd hor (hstaffed hrun)
    . intro hrun hqueue
      exact absurd (Or.inl hqueue) (hstaffed hrun)
    . intro _
      right
      intro w hw
      cases hw
    . intro hstop _
      exact h.wakeful.drained hstop hall

theorem Wakeful.addCall (h : s.Wakeful) (hlock : (∃ n, c = .submitLock n) → s.workers ≠ []) :
    (s.addCall c).Wakeful := by
  have hmem : ∀ d ∈ s.calls ++ [c], d ∈ s.calls ∨ d = c := by
    intro d hd
    rw [List.mem_append, List.mem_singleton] at hd
    exact hd
  constructor
  . exact h.present
  . rintro hrun (hqueue | hsched | ⟨m, hm⟩)
    . exact h.staffed hrun (Or.inl hqueue)
    . exact h.staffed hrun (Or.inr (Or.inl hsched))
    . rcases hmem _ hm with hold | heq
      . exact h.staffed hrun (Or.inr (Or.inr ⟨m, hold⟩))
      . exact hlock ⟨m, heq.symm⟩
  . intro hrun hne hall
    obtain ⟨d, hd, hsubmit⟩ := h.awake hrun hne hall
    exact ⟨d, List.mem_append_left _ hd, hsubmit⟩
  . intro hstop
    exact (h.woken hstop).imp_left (List.mem_append_left _)
  . exact h.drained

/-- A function is called that has no task and no job of its own. -/
theorem Inv.addCall (h : s.Inv) (hinlines : ∀ t, c.inlines t = false)
    (hschedules : ∀ id, c.schedules id = false)
    (hlock : (∃ n, c = .submitLock n) → s.workers ≠ []) : (s.addCall c).Inv := by
  have hspread : ∀ t, (s.addCall c).spread t = s.spread t := by
    intro t
    unfold spread ThreadPool.addCall
    dsimp only
    rw [List.countP_append, List.countP_singleton, hinlines]
    rfl
  have hjobs : ∀ id, (s.addCall c).jobSpread id = s.jobSpread id := by
    intro id
    unfold jobSpread
    rw [hspread]
    unfold ThreadPool.addCall
    dsimp only
    rw [List.countP_append, List.countP_singleton, hschedules]
    rfl
  exact ⟨h.counts.congr hspread hjobs rfl rfl h.counts.active h.counts.sleeping,
    h.wakeful.addCall hlock⟩

theorem Inv.submitInline (h : s.Inv) (n : Nat) :
    ({ s with accepted := s.accepted ++ [n] }.addCall (.inline n)).Inv := by
  have hspread : ∀ t, ({ s with accepted := s.accepted ++ [n] }.addCall (.inline n)).spread t =
      s.spread t + if t = .submitted n then 1 else 0 := by
    intro t
    unfold spread ThreadPool.addCall
    dsimp only
    rw [List.countP_append, List.countP_singleton]
    simp only [PoolCall.inlines, decide_eq_true_eq]
    omega
  have hjobs : ∀ id, ({ s with accepted := s.accepted ++ [n] }.addCall (.inline n)).jobSpread id =
      s.jobSpread id := by
    intro id
    unfold jobSpread
    rw [hspread]
    unfold ThreadPool.addCall
    dsimp only
    rw [List.countP_append, List.countP_singleton]
    rfl
  constructor
  . constructor
    . intro m
      rw [hspread, h.counts.once m]
      unfold ThreadPool.addCall
      dsimp only
      rw [List.count_append, List.count_singleton]
      by_cases heq : m = n
      . simp [heq]
      . have hne : n ≠ m := fun h => heq h.symm
        simp [heq, hne]
    . intro id
      rw [hjobs]
      exact h.counts.jobs id
    . intro id hid
      rw [hjobs]
      exact h.counts.fresh id hid
    . exact h.counts.active
    . exact h.counts.sleeping
  . have hcall : (s.addCall (.inline n)).Wakeful := h.wakeful.addCall (by simp)
    exact ⟨hcall.present, hcall.staffed, hcall.awake, hcall.woken, hcall.drained⟩

theorem Inv.scheduleAfter (h : s.Inv) (when : Nat) : ({ s with
    nextJobId := s.nextJobId + 1 }.addCall (.scheduleLock s.nextJobId when)).Inv := by
  have hspread : ∀ t, ({ s with
      nextJobId := s.nextJobId + 1 }.addCall (.scheduleLock s.nextJobId when)).spread t =
        s.spread t := by
    intro t
    unfold spread ThreadPool.addCall
    dsimp only
    rw [List.countP_append, List.countP_singleton]
    rfl
  have hjobs : ∀ id, ({ s with
      nextJobId := s.nextJobId + 1 }.addCall (.scheduleLock s.nextJobId when)).jobSpread id =
        s.jobSpread id + if s.nextJobId = id then 1 else 0 := by
    intro id
    unfold jobSpread
    rw [hspread]
    unfold ThreadPool.addCall
    dsimp only
    rw [List.countP_append, List.countP_singleton]
    simp only [PoolCall.schedules, decide_eq_true_eq]
    omega
  constructor
  . constructor
    . intro m
      rw [hspread]
      exact h.counts.once m
    . intro id
      rw [hjobs]
      split
      next heq =>
        have hfresh := h.counts.fresh id (Nat.le_of_eq heq)
        omega
      next => exact h.counts.jobs id
    . intro id hid
      have hlt : s.nextJobId < id := hid
      rw [hjobs, if_neg (Nat.ne_of_lt hlt)]
      exact h.counts.fresh id (Nat.le_of_lt hlt)
    . exact h.counts.active
    . exact h.counts.sleeping
  . have hcall : (s.addCall (.scheduleLock s.nextJobId when)).Wakeful := h.wakeful.addCall (by simp)
    exact ⟨hcall.present, hcall.staffed, hcall.awake, hcall.woken, hcall.drained⟩

theorem Inv.cancelJob (h : s.Inv) (id : Nat) : ({ s with
    schedQueue := s.schedQueue.filter fun job : Nat × Nat => job.1 ≠ id,
    cancelled := s.cancelled ++
      (s.schedQueue.filter fun job : Nat × Nat => job.1 = id).map Prod.fst }).Inv := by
  have hsplit : ∀ id', (s.schedQueue.filter fun job : Nat × Nat => job.1 ≠ id).countP (·.1 = id') +
      ((s.schedQueue.filter fun job : Nat × Nat => job.1 = id).map Prod.fst).count id' =
        s.schedQueue.countP (·.1 = id') := by
    intro id'
    induction s.schedQueue with
    | nil => rfl
    | cons job sched ih =>
      rw [List.filter_cons, List.filter_cons, List.countP_cons, ← ih]
      by_cases heq : job.1 = id
      . by_cases heq' : id = id'
        . simp [heq, heq']
          omega
        . simp [heq, heq']
      . by_cases heq' : job.1 = id'
        . subst heq'
          simp [heq]
          omega
        . simp [heq, heq']
  have hjobs : ∀ id', ({ s with
      schedQueue := s.schedQueue.filter fun job : Nat × Nat => job.1 ≠ id,
      cancelled := s.cancelled ++ (s.schedQueue.filter fun job : Nat × Nat => job.1 = id).map
        Prod.fst }).jobSpread id' = s.jobSpread id' := by
    intro id'
    have hid := hsplit id'
    unfold jobSpread spread
    dsimp only
    rw [List.count_append]
    omega
  constructor
  . exact h.counts.congr (fun _ => rfl) hjobs rfl rfl h.counts.active h.counts.sleeping
  . constructor
    . exact h.wakeful.present
    . intro hrun hor
      apply h.wakeful.staffed hrun
      apply hor.imp_right
      apply Or.imp_left
      intro hne hnil
      rw [hnil] at hne
      exact hne rfl
    . exact h.wakeful.awake
    . exact h.wakeful.woken
    . exact h.wakeful.drained

theorem Inv.stopPool (h : s.Inv) :
    ({ s with poolShutdown := true }.addCall .stopNotify).Inv := by
  have hcall := (h.addCall (c := .stopNotify) (fun _ => rfl) (fun _ => rfl) (by simp)).counts
  constructor
  . exact ⟨hcall.once, hcall.jobs, hcall.fresh, hcall.active, hcall.sleeping⟩
  . constructor
    . intro hrun
      cases hrun
    . intro hrun
      cases hrun
    . intro hrun
      cases hrun
    . intro _
      left
      exact List.mem_append_right _ (List.mem_singleton_self _)
    . intro _ hall
      cases hshut : s.poolShutdown with
      | true => exact h.wakeful.drained hshut hall
      | false =>
        intro m hm
        have hne := h.wakeful.staffed hshut (Or.inl (List.ne_nil_of_mem hm))
        obtain ⟨w, hw⟩ := List.exists_mem_of_ne_nil _ hne
        exact h.wakeful.present hshut w hw (hall w hw)

/-- The `return` of the spin loop leaves no task of a `submit_task` behind, or another worker. And a
`wait_idle` does not return while a caller runs a task itself. -/
def Allowed (s : ThreadPool) : Action → Prop
  | .worker i _ _ => (∃ n, s.workers[i]? = some (.look n)) → s.poolShutdown = true →
      (∀ n, .submitted n ∉ s.taskQueue) ∨ ∃ i' w, i' ≠ i ∧ s.workers[i']? = some w ∧ w ≠ .exited
  | .call j _ => s.calls[j]? = some .idleLock → s.promoteScheduledJobs.taskQueue = [] →
      s.activeTasks = 0 → ∀ n, .inline n ∉ s.calls
  | _ => True

theorem promote_frame : s.promoteScheduledJobs.calls = s.calls ∧
    s.promoteScheduledJobs.activeTasks = s.activeTasks := by
  unfold promoteScheduledJobs
  dsimp only
  split <;> exact ⟨rfl, rfl⟩

theorem Inv.workerStep {tryLock : Bool} (h : s.Inv) (hallowed : s.Allowed (.worker i tryLock k))
    (hstep : s.workerStep i tryLock k = some s') : s'.Inv := by
  unfold ThreadPool.workerStep at hstep
  split at hstep
  next => cases hstep
  next m hi =>
    cases hstep
    apply h.setPlain hi rfl
    split <;> rfl
  next m hi =>
    split at hstep
    next s'' htry =>
      cases hstep
      split at htry
      . exact h.tryDequeue hi rfl htry
      . cases htry
    next =>
      cases hstep
      exact h.setPlain hi rfl rfl
  next m hi =>
    split at hstep
    next hstop =>
      cases hstep
      exact h.exit hi rfl hstop (hallowed ⟨m, hi⟩ hstop)
    next =>
      cases hstep
      apply h.setPlain hi rfl
      split <;> rfl
  next hi =>
    cases hstep
    exact h.slowRound hi rfl
  next timed notified hi =>
    have hwake := h.wake hi
    have hget : ({ s with
        sleepingCount := s.sleepingCount - 1 }.setWorker i .slow).workers[i]? = some .slow := by
      unfold ThreadPool.setWorker
      dsimp only
      rw [List.getElem?_set_self (List.getElem?_eq_some_iff.mp hi).1]
    split at hstep
    next =>
      dsimp only at hstep
      split at hstep
      next hgone =>
        cases hstep
        apply hwake.exit hget rfl hgone.1
        left
        rw [hgone.2]
        exact fun n => List.not_mem_nil
      next =>
        cases hstep
        exact hwake.slowRound hget rfl
    next hnone =>
      cases hstep
      simp only [not_or, Bool.not_eq_true, ne_eq, not_not] at hnone
      obtain ⟨rfl, hrun, hqueue, -⟩ := hnone
      exact h.resleep hi hrun hqueue
  next t hi =>
    cases hstep
    exact h.finish hi
  next hi => exact h.complete hi hstep
  next => cases hstep

theorem Inv.callStep (h : s.Inv) (hstep : s.callStep j k = some s') : s'.Inv := by
  unfold ThreadPool.callStep at hstep
  split at hstep
  next => cases hstep
  next m hj =>
    split at hstep
    next =>
      cases hstep
      exact h.setCall hj (fun _ => rfl) (fun _ => rfl) PoolCall.noConfusion
        (fun _ => PoolCall.noConfusion) fun hsubmit => by cases hsubmit
    next hrun =>
      cases hstep
      exact h.push hj (by simpa using hrun)
  next hj =>
    cases hstep
    have hcall : (s.setCall j .submitCheck).Inv := h.setCall hj (fun _ => rfl) (fun _ => rfl)
      PoolCall.noConfusion (fun _ => PoolCall.noConfusion) fun _ => Or.inl rfl
    exact ⟨⟨hcall.counts.once, hcall.counts.jobs, hcall.counts.fresh, hcall.counts.active,
      hcall.counts.sleeping⟩, ⟨hcall.wakeful.present, hcall.wakeful.staffed, hcall.wakeful.awake,
      hcall.wakeful.woken, hcall.wakeful.drained⟩⟩
  next hj =>
    cases hstep
    exact h.check hj
  next hj => exact h.submitNotify hj hstep
  next m hj =>
    cases hstep
    exact h.runInline hj
  next id when hj =>
    split at hstep
    next =>
      cases hstep
      exact h.dropJob hj
    next hrun =>
      cases hstep
      exact h.schedule hj (by simpa using hrun)
  next hj =>
    have hcall : (s.setCall j .done).Inv := h.setCall hj (fun _ => rfl) (fun _ => rfl)
      PoolCall.noConfusion (fun _ => PoolCall.noConfusion) fun hsubmit => by cases hsubmit
    exact hcall.notifyOne hstep
  next hj =>
    have hj' : s.promoteScheduledJobs.calls[j]? = some .idleLock := by
      rw [promote_frame.1]
      exact hj
    dsimp only at hstep
    split at hstep
    next =>
      cases hstep
      exact h.promote.setCall hj' (fun _ => rfl) (fun _ => rfl) PoolCall.noConfusion
        (fun _ => PoolCall.noConfusion) fun hsubmit => by cases hsubmit
    next =>
      cases hstep
      exact h.promote.setCall hj' (fun _ => rfl) (fun _ => rfl) PoolCall.noConfusion
        (fun _ => PoolCall.noConfusion) fun hsubmit => by cases hsubmit
  next hj =>
    cases hstep
    exact h.setCall hj (fun _ => rfl) (fun _ => rfl) PoolCall.noConfusion
      (fun _ => PoolCall.noConfusion) fun hsubmit => by cases hsubmit
  next hj =>
    cases hstep
    exact h.stopNotify hj
  next hj =>
    split at hstep
    next hall =>
      cases hstep
      apply h.stopJoin hj
      intro w hw
      rw [List.all_eq_true] at hall
      simpa using hall w hw
    next => cases hstep
  next => cases hstep

theorem Inv.step {a : Action} (h : s.Inv) (hallowed : s.Allowed a) (hstep : s.step a = some s') :
    s'.Inv := by
  cases a with
  | submitTask m =>
    simp only [ThreadPool.step] at hstep
    split at hstep
    next =>
      cases hstep
      exact h.submitInline m
    next hne =>
      cases hstep
      exact h.addCall (fun _ => rfl) (fun _ => rfl) fun _ => hne
  | scheduleAfter delay =>
    cases hstep
    exact h.scheduleAfter _
  | cancelJob id =>
    cases hstep
    exact h.cancelJob id
  | waitIdle =>
    cases hstep
    exact h.addCall (fun _ => rfl) (fun _ => rfl) (by simp)
  | stopPool =>
    cases hstep
    exact h.stopPool
  | tick =>
    cases hstep
    obtain ⟨hcounts, hwakeful⟩ := h
    exact ⟨⟨hcounts.once, hcounts.jobs, hcounts.fresh, hcounts.active, hcounts.sleeping⟩,
      ⟨hwakeful.present, hwakeful.staffed, hwakeful.awake, hwakeful.woken, hwakeful.drained⟩⟩
  | call j k => exact h.callStep hstep
  | worker i tryLock k => exact h.workerStep hallowed hstep

/-- Every step of the run is allowed. -/
def AllowedAll (s : ThreadPool) : List Action → Prop
  | [] => True
  | a :: acts => s.Allowed a ∧ ∀ s', s.step a = some s' → AllowedAll s' acts

theorem Inv.run {acts : List Action} (h : s.Inv) (hallowed : s.AllowedAll acts)
    (hrun : s.run acts = some s') : s'.Inv := by
  induction acts generalizing s with
  | nil =>
    cases hrun
    exact h
  | cons a acts ih =>
    unfold ThreadPool.run at hrun
    rw [List.foldlM_cons] at hrun
    cases hstep : s.step a with
    | none =>
      rw [hstep] at hrun
      cases hrun
    | some s'' =>
      rw [hstep] at hrun
      exact ih (h.step hallowed.1 hstep) (hallowed.2 s'' hstep) hrun

/-- The worker waits and has not been notified, or it has left. -/
def Blocked (w : PoolWorker) : Prop := w.waiting = true ∨ w = .exited

/-- What the pool promises. Every accepted task is executed, is being executed or is in the queue,
once in all. A job is executed at most once, and never if it has been cancelled in the queue. No
accepted task is in the queue while all workers are blocked and no caller is about to notify one,
nor when all workers have left after a stop. -/
structure Sound (s : ThreadPool) : Prop where
  once : ∀ n, s.spread (.submitted n) = s.accepted.count n
  job : ∀ id, s.spread (.job id) ≤ 1
  cancel : ∀ id ∈ s.cancelled, s.spread (.job id) = 0
  noneStuck : (∀ w ∈ s.workers, Blocked w) → (∀ c ∈ s.calls, c.submitting = false) →
    .stopNotify ∉ s.calls → ∀ n, .submitted n ∉ s.taskQueue
  stopped : s.poolShutdown = true → (∀ w ∈ s.workers, w = .exited) →
    ∀ n, .submitted n ∉ s.taskQueue

theorem Inv.sound (h : s.Inv) : s.Sound where
  once := h.counts.once
  job := by
    intro id
    have hjobs := h.counts.jobs id
    unfold jobSpread at hjobs
    omega
  cancel := by
    intro id hid
    have hjobs := h.counts.jobs id
    have hpos := List.count_pos_iff.mpr hid
    unfold jobSpread at hjobs
    omega
  noneStuck := by
    intro hblocked hcalls hnotify
    cases hshut : s.poolShutdown with
    | true =>
      have hawake := (h.wakeful.woken hshut).resolve_left hnotify
      apply h.wakeful.drained hshut
      intro w hw
      apply (hblocked w hw).resolve_left
      rw [hawake w hw]
      exact Bool.false_ne_true
    | false =>
      intro m hm
      obtain ⟨c, hc, hsubmit⟩ := h.wakeful.awake hshut (List.ne_nil_of_mem hm) fun w hw =>
        (hblocked w hw).resolve_right (h.wakeful.present hshut w hw)
      rw [hcalls c hc] at hsubmit
      cases hsubmit
  stopped := h.wakeful.drained

/-- No task is in the queue or running. -/
structure Idle (s : ThreadPool) : Prop where
  queue : s.taskQueue = []
  workers : ∀ w ∈ s.workers, ∀ t, w ≠ .running t
  callers : ∀ c ∈ s.calls, ∀ n, c ≠ .inline n

/-- Behind a `wait_idle` that returns no task is in the queue or running. -/
theorem Inv.idle (h : s.Inv) (hallowed : s.Allowed (.call j k)) (hj : s.calls[j]? = some .idleLock)
    (hstep : s.callStep j k = some s') (hdone : s'.calls[j]? = some .done) : s'.Idle := by
  unfold ThreadPool.callStep at hstep
  rw [hj] at hstep
  dsimp only at hstep
  have hlt := (List.getElem?_eq_some_iff.mp hj).1
  obtain ⟨hcalls, hactive⟩ := promote_frame (s := s)
  split at hstep
  next hidle =>
    cases hstep
    have hnone := h.promote.counts.active
    rw [hidle.2] at hnone
    constructor
    . exact hidle.1
    . rintro w hw t rfl
      have hzero := List.countP_eq_zero.mp hnone.symm _ hw
      exact hzero rfl
    . rintro c hc m rfl
      rw [hactive] at hidle
      apply hallowed hj hidle.1 hidle.2 m
      unfold ThreadPool.setCall at hc
      rw [hcalls] at hc
      exact (List.mem_or_eq_of_mem_set hc).resolve_right PoolCall.noConfusion
  next =>
    cases hstep
    unfold ThreadPool.setCall at hdone
    dsimp only at hdone
    rw [hcalls, List.getElem?_set_self hlt] at hdone
    cases hdone

/-- In a run whose steps are all allowed the pool keeps its promises, and every `wait_idle` that
returns does so when no task is in the queue or running. -/
theorem threadPool_run (numThreads : Nat) (acts : List Action) (s : ThreadPool)
    (hrun : (init numThreads).run acts = some s) (hallowed : (init numThreads).AllowedAll acts) :
    s.Sound ∧ ∀ j k s', s.Allowed (.call j k) → s.calls[j]? = some .idleLock →
      s.step (.call j k) = some s' → s'.calls[j]? = some .done → s'.Idle := by
  have h := (inv_init numThreads).run hallowed hrun
  refine ⟨h.sound, ?_⟩
  intro j k s' hallowed' hj hstep hdone
  exact h.idle hallowed' hj hstep hdone

theorem AllowedAll.cons {a : Action} {acts : List Action} (hallowed : s.Allowed a)
    (hstep : s.step a = some s') (hrest : s'.AllowedAll acts) : s.AllowedAll (a :: acts) := by
  refine ⟨hallowed, ?_⟩
  intro s'' hstep'
  rw [hstep, Option.some.injEq] at hstep'
  rw [← hstep']
  exact hrest

/-- A task is submitted and taken by the only worker. -/
theorem threadPool_run_task : ∃ s, (init 1).run
    [.submitTask 7, .call 0 0, .call 0 0, .worker 0 true 0, .worker 0 true 0] = some s ∧
      s.workers = [.running (.submitted 7)] ∧ s.Sound := by
  refine ⟨_, rfl, rfl, (threadPool_run 1 [.submitTask 7, .call 0 0, .call 0 0, .worker 0 true 0,
    .worker 0 true 0] _ rfl ?_).1⟩
  have hcall : ∀ s : ThreadPool, s.calls[0]? ≠ some .idleLock → s.Allowed (.call 0 0) :=
    fun s hne h => absurd h hne
  have hworker : ∀ s : ThreadPool, (∀ n, s.workers[0]? ≠ some (.look n)) →
      s.Allowed (.worker 0 true 0) := fun s hne h => absurd h.choose_spec (hne h.choose)
  refine AllowedAll.cons trivial rfl ?_
  refine AllowedAll.cons (hcall _ (by decide)) rfl ?_
  refine AllowedAll.cons (hcall _ (by decide)) rfl ?_
  refine AllowedAll.cons (hworker _ fun n => by simp [init, setCall, addCall]) rfl ?_
  refine AllowedAll.cons (hworker _ fun n => by simp [init, setCall, addCall, setWorker]) rfl ?_
  trivial

/-- The only worker leaves its spin loop between the push of a task and the count of it, after the
stop: the task stays in the queue for ever. And a `wait_idle` of a pool without workers returns
while a caller runs a task. -/
theorem threadPool_drops_task :
    (¬∀ numThreads acts s, (init numThreads).run acts = some s → s.Sound) ∧
      ¬∀ numThreads acts s j k s', (init numThreads).run acts = some s →
        s.calls[j]? = some .idleLock → s.step (.call j k) = some s' →
          s'.calls[j]? = some .done → s'.Idle := by
  constructor
  . intro hall
    have h := hall 1 [.submitTask 7, .call 0 0, .stopPool, .call 1 0, .worker 0 true 0,
      .worker 0 true 0, .call 0 0, .call 0 0, .call 1 0] _ rfl
    exact h.stopped rfl (by decide) 7 (by decide)
  . intro hall
    have h := hall 0 [.submitTask 7, .waitIdle] _ 1 0 _ rfl rfl rfl rfl
    exact h.callers (.inline 7) (by decide) 7 rfl

end ThreadPool
end Leaves
