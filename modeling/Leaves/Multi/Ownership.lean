import Leaves.Multi.Lifecycle
import Leaves.Multi.MergeTask

/-!
Whose `_merge_task_active` is, and what a step of a waker or of a task may change.
-/

namespace Leaves

open Function

namespace SlotTable

variable {n : Nat}

/-- The slots the threads know are in the table, and the others are not in use. -/
structure Bounded (s : SlotTable n) : Prop where
  empty : ∀ i, s.count ≤ i → (s.slots i).state = .empty
  writeSource : ∀ c i, (s.users c).writeSource = some i → i < s.count
  sources : ∀ c i, i ∈ (s.users c).sources → i < s.count
  slot : ∀ c i, (s.users c).pc.slot = some i → i < s.count

theorem bounded_create (n : Nat) : (create n).Bounded := by
  constructor <;> simp [create, Slot.fresh, Pc.slot]

theorem Bounded.start {s s' : SlotTable n} (h : s.Bounded) {c : Option (Fin n)} {a : CursorAction}
    (hs : s.start c (s.users c) a = some s') : s'.Bounded := by
  have hw := h.writeSource
  have hq := h.sources
  have hp := h.slot
  have he := h.empty
  unfold SlotTable.start at hs
  cases a
  all_goals
    simp only at hs
    repeat' split at hs
  all_goals
    first
    | simp at hs; done
    | obtain rfl := Option.some.inj hs
  all_goals
    constructor
  all_goals
    simp only [setUser, setSlot, goto, setState, setTxnRefs, Function.update_apply, Pc.slot,
      Slot.fresh] at *
    grind

theorem Bounded.resume {s s' : SlotTable n} (h : s.Bounded) {c : Option (Fin n)} {ok : Bool}
    (hs : s.resume c (s.users c) ok = some s') : s'.Bounded := by
  have hw := h.writeSource
  have hq := h.sources
  have hp := h.slot
  have he := h.empty
  have hc := h.slot c
  unfold SlotTable.resume at hs
  repeat' split at hs
  all_goals
    first
    | simp at hs; done
    | obtain rfl := Option.some.inj hs
  all_goals
    simp only [*, Pc.slot] at hc
    constructor
  all_goals
    simp only [setUser, setSlot, goto, setState, setRefs, setTxnRefs, Function.update_apply,
      Pc.slot] at *
    grind

theorem Bounded.step {s s' : SlotTable n} (h : s.Bounded) {e : SlotEvent n}
    (hs : s.step e = some s') : s'.Bounded := by
  unfold SlotTable.step at hs
  cases e with
  | cursor c a =>
    simp only [Option.ite_none_right_eq_some] at hs
    exact h.start hs.2
  | merge i =>
    simp only [Option.ite_none_right_eq_some, Option.some.injEq] at hs
    obtain ⟨⟨hpc, hstate⟩, rfl⟩ := hs
    have hi : i < s.count := by
      have := h.empty i
      grind
    have hw := h.writeSource
    have hq := h.sources
    have hp := h.slot
    have he := h.empty
    constructor
    all_goals
      simp only [setUser, setSlot, goto, setState, Function.update_apply, Pc.slot] at *
      grind
  | resume c ok => exact h.resume hs

theorem lt_of_merging {s : SlotTable n} (h : s.Bounded) {i : Nat}
    (hi : (s.slots i).state = .merging) : i < s.count := by
  have := h.empty i
  grind

theorem count_start {s s' : SlotTable n} {c : Option (Fin n)} {a : CursorAction}
    (hs : s.start c (s.users c) a = some s') : s.count ≤ s'.count := by
  unfold SlotTable.start at hs
  cases a
  all_goals
    simp only at hs
    repeat' split at hs
  all_goals
    first
    | simp at hs; done
    | obtain rfl := Option.some.inj hs
      simp [setUser, setSlot, goto, setState, setTxnRefs]

theorem count_step {s s' : SlotTable n} {e : SlotEvent n} (hs : s.step e = some s') :
    s.count ≤ s'.count := by
  unfold SlotTable.step at hs
  cases e with
  | cursor c a =>
    simp only [Option.ite_none_right_eq_some] at hs
    exact count_start hs.2
  | merge i =>
    simp only [Option.ite_none_right_eq_some, Option.some.injEq] at hs
    obtain ⟨-, rfl⟩ := hs
    exact Nat.le_refl _
  | resume c ok =>
    simp only at hs
    unfold SlotTable.resume at hs
    repeat' split at hs
    all_goals
      first
      | simp at hs; done
      | obtain rfl := Option.some.inj hs
        exact Nat.le_refl _

theorem users_merge {s s' : SlotTable n} {c : Fin n} {i : Nat} (hs : s.step (.merge i) = some s') :
    s'.users (some c) = s.users (some c) := by
  simp only [SlotTable.step, Option.ite_none_right_eq_some, Option.some.injEq] at hs
  obtain ⟨-, rfl⟩ := hs
  simp

/-- What a cursor begins makes only the slot `merging` that it publishes. -/
theorem merging_start {s s' : SlotTable n} {c : Fin n} {a : CursorAction} {i : Nat}
    (hs : s.start (some c) (s.users (some c)) a = some s') (hi : (s'.slots i).state = .merging) :
    (s.slots i).state = .merging ∨ s.publishes c a = some i := by
  unfold SlotTable.start at hs
  cases a
  all_goals
    simp only at hs
    repeat' split at hs
  all_goals
    first
    | simp at hs; done
    | obtain rfl := Option.some.inj hs
  all_goals
    simp only [setUser, setSlot, goto, setState, setTxnRefs, Function.update_apply, publishes,
      Slot.fresh] at *
    grind

theorem merging_resume {s s' : SlotTable n} {c : Fin n} {ok : Bool} {i : Nat}
    (hs : s.resume (some c) (s.users (some c)) ok = some s')
    (hi : (s'.slots i).state = .merging) :
    (s.slots i).state = .merging ∨ s.resumePublishes c ok = some i := by
  unfold SlotTable.resume at hs
  repeat' split at hs
  all_goals
    first
    | simp at hs; done
    | obtain rfl := Option.some.inj hs
  all_goals
    simp only [setUser, setSlot, goto, setState, setRefs, setTxnRefs, Function.update_apply,
      resumePublishes] at *
    grind

/-- The cursor parks the slot that it has made `merging`. -/
def Parks (s : SlotTable n) (c : Fin n) (i : Nat) : Prop :=
  ((s.users (some c)).pc = .park ∧ (s.users (some c)).writeSource = some i) ∨
    (s.users (some c)).pc = .unpin i ∨ (s.users (some c)).pc = .unpinned i ∨
    (s.users (some c)).pc = .recycle i ∨ (s.users (some c)).pc = .emptied i ∨
    (s.users (some c)).pc = .idle

theorem parks_start {s s' : SlotTable n} {c : Fin n} {a : CursorAction} {i : Nat}
    (hs : s.start (some c) (s.users (some c)) a = some s') (hi : s.publishes c a = some i) :
    (s'.users (some c)).pc = .park ∧ (s'.users (some c)).writeSource = some i := by
  unfold SlotTable.start at hs
  cases a
  all_goals
    simp only at hs
    repeat' split at hs
  all_goals
    first
    | simp at hs; done
    | obtain rfl := Option.some.inj hs
  all_goals
    simp only [setUser, setSlot, goto, setState, Function.update_apply, publishes] at *
    grind

theorem parks_resume {s s' : SlotTable n} {c : Fin n} {ok : Bool} {i : Nat}
    (hs : s.resume (some c) (s.users (some c)) ok = some s')
    (hi : s.resumePublishes c ok = some i) :
    (s'.users (some c)).pc = .park ∧ (s'.users (some c)).writeSource = some i := by
  unfold SlotTable.resume at hs
  unfold resumePublishes at hi
  repeat' split at hs
  all_goals
    first
    | simp at hs; done
    | obtain rfl := Option.some.inj hs
  all_goals
    simp only [setUser, setSlot, goto, setState, setRefs, setTxnRefs, Function.update_apply] at *
    grind

theorem Parks.resume {s s' : SlotTable n} {c : Fin n} {ok : Bool} {i : Nat} (h : s.Parks c i)
    (hs : s.resume (some c) (s.users (some c)) ok = some s') : s'.Parks c i := by
  unfold SlotTable.resume at hs
  unfold Parks at *
  repeat' split at hs
  all_goals
    first
    | simp at hs; done
    | obtain rfl := Option.some.inj hs
  all_goals
    simp only [setUser, setSlot, goto, setRefs, setTxnRefs, Function.update_apply] at *
    grind

theorem Parks.resumePublishes {s : SlotTable n} {c : Fin n} {i : Nat} (h : s.Parks c i)
    (ok : Bool) : s.resumePublishes c ok = none := by
  unfold SlotTable.resumePublishes
  unfold Parks at h
  split
  all_goals
    grind

/-- A slot that is not `merged` is not recycled when it has been parked. -/
theorem Parks.recycled {s s' : SlotTable n} {c : Fin n} {ok : Bool} {i : Nat} (h : s.Parks c i)
    (hs : s.resume (some c) (s.users (some c)) ok = some s')
    (hpc : (s.users (some c)).pc.recycled = none) (hi : (s.slots i).state ≠ .merged) :
    (s'.users (some c)).pc.recycled = none := by
  unfold SlotTable.resume at hs
  unfold Parks at h
  repeat' split at hs
  all_goals
    first
    | simp at hs; done
    | obtain rfl := Option.some.inj hs
  all_goals
    simp only [setUser, setSlot, goto, setRefs, setTxnRefs, Function.update_apply] at *
    grind [Pc.recycled]

end SlotTable

/-- The caller has set `_merge_task_active` and has not handed it on to a task. -/
def WakePc.owns : WakePc → Bool
  | won .. => true
  | _ => false

/-- `_merge_task_active` is the one of the task. -/
def TaskPc.owns : TaskPc → Bool
  | load | exchange _ | lock .. | locked .. | collect .. | drain .. | publish .. | clear _ => true
  | absent | recheck _ | count | scan .. | rewin | retired => false

/-- The task will look at the slot before it retires, or it will find the flag taken. -/
def TaskPc.willScan (i : Nat) : TaskPc → Bool
  | absent | retired => false
  | scan j m => j ≤ i && i < m
  | _ => true

/-- The task has read `_merge_signal`. -/
def TaskPc.sig : TaskPc → Option Nat
  | exchange sig | lock sig _ | locked sig _ | collect sig .. | drain sig .. | publish sig _
  | clear sig | recheck sig => some sig
  | absent | load | count | scan .. | rewin | retired => none

/-- The task is in a pass. -/
def TaskPc.pass : TaskPc → Option Nat
  | lock sig _ | locked sig _ | collect sig .. | drain sig .. | publish sig _ => some sig
  | absent | load | exchange _ | clear _ | recheck _ | count | scan .. | rewin | retired => none

/-- The value of `_merge_done` that a request waits for. -/
def WakePc.req : WakePc → Option Nat
  | signalled _ req | won _ req => req
  | waiting req => some req
  | idle | published _ | forced | released => none

/-- The event bumps `_merge_signal`. -/
def MergeEvent.bumps {n : Nat} : MergeEvent n → Bool
  | signal _ | request _ => true
  | _ => false

theorem TaskPc.willScan_of_owns {pc : TaskPc} (h : pc.owns = true) (i : Nat) :
    pc.willScan i = true := by
  cases pc <;> simp_all [owns, willScan]

namespace MergeState

variable {n : Nat}

def Owns (s : MergeState n) : Waker n ⊕ Nat → Prop
  | .inl w => (s.wakes w).owns = true
  | .inr t => (s.tasks t).owns = true

def OwnedBy (s : MergeState n) (owner : Option (Waker n ⊕ Nat)) : Prop :=
  s.active = owner.isSome ∧ ∀ o, s.Owns o ↔ owner = some o

theorem ownedBy_create (n : Nat) : (create n).OwnedBy none := by
  refine ⟨rfl, ?_⟩
  intro o
  cases o <;> simp [create, Owns, WakePc.owns, TaskPc.owns]

section Owner

variable {s s' : MergeState n} {owner : Option (Waker n ⊕ Nat)}

theorem OwnedBy.setTask (h : s.OwnedBy owner) {t : Nat} {pc : TaskPc}
    (hpc : pc.owns = (s.tasks t).owns) : (s.setTask t pc).OwnedBy owner := by
  refine ⟨h.1, ?_⟩
  intro o
  rw [← h.2]
  cases o with
  | inl w => rfl
  | inr r =>
    simp only [Owns, MergeState.setTask, Function.update_apply]
    split
    next hr => rw [hr, hpc]
    next => rfl

theorem OwnedBy.setWake (h : s.OwnedBy owner) {w : Waker n} {pc : WakePc}
    (hpc : pc.owns = (s.wakes w).owns) : (s.setWake w pc).OwnedBy owner := by
  refine ⟨h.1, ?_⟩
  intro o
  rw [← h.2]
  cases o with
  | inl r =>
    simp only [Owns, MergeState.setWake, Function.update_apply]
    split
    next hr => rw [hr, hpc]
    next => rfl
  | inr t => rfl

theorem OwnedBy.wakeDone (h : s.OwnedBy owner) {w : Waker n} {req : Option Nat}
    (hw : (s.wakes w).owns = false) : (s.wakeDone w req).OwnedBy owner := by
  unfold MergeState.wakeDone
  cases req with
  | none =>
    apply h.setWake
    rw [hw]
    rfl
  | some req =>
    apply h.setWake
    rw [hw]
    rfl

theorem OwnedBy.eq_none (h : s.OwnedBy owner) (hactive : s.active = false) : owner = none := by
  have h := h.1
  rw [hactive] at h
  cases owner with
  | none => rfl
  | some o => simp at h

theorem OwnedBy.eq_some (h : s.OwnedBy owner) {o : Waker n ⊕ Nat} (ho : s.Owns o) :
    owner = some o :=
  (h.2 o).mp ho

/-- A caller wins the flag. -/
theorem OwnedBy.wakeWins (h : s.OwnedBy none) {w : Waker n} {pc : WakePc} (hpc : pc.owns = true) :
    ({ s with active := true }.setWake w pc).OwnedBy (some (.inl w)) := by
  refine ⟨rfl, ?_⟩
  intro o
  have ho := h.2 o
  cases o with
  | inl r =>
    simp only [Owns, MergeState.setWake, Function.update_apply] at *
    grind
  | inr t => simpa [Owns, MergeState.setWake] using ho

/-- A task wins the flag again. -/
theorem OwnedBy.taskWins (h : s.OwnedBy none) {t : Nat} {pc : TaskPc} (hpc : pc.owns = true) :
    ({ s with active := true }.setTask t pc).OwnedBy (some (.inr t)) := by
  refine ⟨rfl, ?_⟩
  intro o
  have ho := h.2 o
  cases o with
  | inl w => simpa [Owns, MergeState.setTask] using ho
  | inr r =>
    simp only [Owns, MergeState.setTask, Function.update_apply] at *
    grind

/-- The task gives the flag back. -/
theorem OwnedBy.clears (h : s.OwnedBy owner) {t : Nat} {pc : TaskPc} (ht : (s.tasks t).owns = true)
    (hpc : pc.owns = false) : ({ s with active := false }.setTask t pc).OwnedBy none := by
  have hown : owner = some (.inr t) := h.eq_some ht
  refine ⟨rfl, ?_⟩
  intro o
  have ho := h.2 o
  cases o with
  | inl w => simp_all [Owns, MergeState.setTask]
  | inr r =>
    simp only [Owns, MergeState.setTask, Function.update_apply] at *
    grind

/-- The caller hands the flag on to the task that it submits. -/
theorem OwnedBy.submits (h : s.OwnedBy owner) {w : Waker n} {t : Nat} {pc : WakePc}
    (hw : (s.wakes w).owns = true) (hpc : pc.owns = false) :
    ((s.setTask t .load).setWake w pc).OwnedBy (some (.inr t)) := by
  have hown : owner = some (.inl w) := h.eq_some hw
  have hactive : s.active = true := by
    rw [h.1, hown]
    rfl
  refine ⟨hactive, ?_⟩
  intro o
  have ho := h.2 o
  cases o with
  | inl r =>
    simp only [Owns, MergeState.setTask, MergeState.setWake, Function.update_apply] at *
    grind
  | inr r =>
    simp only [Owns, MergeState.setTask, MergeState.setWake, Function.update_apply] at *
    grind [TaskPc.owns]

theorem OwnedBy.retire (h : s.OwnedBy owner) {t : Nat} (ht : (s.tasks t).owns = false) :
    (s.retire t).OwnedBy owner := by
  have h : MergeState.OwnedBy { s with inflight := s.inflight - 1 } owner := h
  exact h.setTask ht.symm

theorem OwnedBy.setTable (h : s.OwnedBy owner) {c : Fin n} {published : Option Nat}
    {table : SlotTable n} (hc : (s.wakes (.inl c)).owns = false) :
    (s.setTable c published table).OwnedBy owner := by
  have h : MergeState.OwnedBy { s with table } owner := h
  cases published with
  | none => exact h
  | some i => exact h.setWake hc.symm

theorem OwnedBy.retireStep (h : s.OwnedBy owner) {e : MergeEvent n}
    (hs : s.retireStep e = some s') : ∃ owner', s'.OwnedBy owner' := by
  unfold MergeState.retireStep at hs
  cases e with
  | count t =>
    simp only at hs
    split at hs
    next ht =>
      obtain rfl := Option.some.inj hs
      exact ⟨owner, h.setTask (by rw [ht]; rfl)⟩
    next ht =>
      obtain rfl := Option.some.inj hs
      exact ⟨owner, h.setTask (by rw [ht]; rfl)⟩
    next => simp at hs
  | clear t =>
    simp only at hs
    split at hs
    next ht =>
      obtain rfl := Option.some.inj hs
      exact ⟨none, h.clears (by rw [ht]; rfl) rfl⟩
    next => simp at hs
  | recheck t =>
    simp only at hs
    split at hs
    next ht =>
      obtain rfl := Option.some.inj hs
      refine ⟨owner, h.setTask ?_⟩
      rw [ht]
      split <;> rfl
    next => simp at hs
  | scan t =>
    simp only at hs
    split at hs
    next ht =>
      split at hs
      . obtain rfl := Option.some.inj hs
        refine ⟨owner, h.setTask ?_⟩
        rw [ht]
        split <;> rfl
      . obtain rfl := Option.some.inj hs
        exact ⟨owner, h.retire (by rw [ht]; rfl)⟩
    next => simp at hs
  | rewin t =>
    simp only at hs
    repeat' split at hs
    next ht hactive =>
      obtain rfl := Option.some.inj hs
      exact ⟨owner, h.retire (by rw [ht]; rfl)⟩
    next ht hactive =>
      obtain rfl := Option.some.inj hs
      obtain rfl := h.eq_none (by simpa using hactive)
      exact ⟨_, h.taskWins rfl⟩
    next => simp at hs
  | _ => simp at hs

end Owner

section Step

variable {s s' : MergeState n}

/-- What a waker may change. -/
structure Wakens (s s' : MergeState n) (e : MergeEvent n) : Prop where
  tasks : ∀ t, s'.tasks t = s.tasks t ∨ s'.tasks t = .load
  count : s.table.count ≤ s'.table.count
  signal : s'.signal = s.signal + e.bumps.toNat
  done : s'.done = s.done
  req : ∀ k r, (s'.wakes (.inr k)).req = some r →
    (s.wakes (.inr k)).req = some r ∨ e = .request k ∧ r = s.signal + 1
  released : ∀ k, s'.wakes (.inr k) = .released → s.wakes (.inr k) = .released ∨
    e = .release k ∧ ∃ req, (s.wakes (.inr k)).req = some req ∧ req ≤ s.done
  notPass : ∀ t, e ≠ .pass t

theorem Wakens.wake {s t : MergeState n} {e : MergeEvent n} (w : Waker n) (pc : WakePc)
    (hwakes : t.wakes = Function.update s.wakes w pc)
    (htasks : ∀ r, t.tasks r = s.tasks r ∨ t.tasks r = .load)
    (hcount : s.table.count ≤ t.table.count) (hsignal : t.signal = s.signal + e.bumps.toNat)
    (hdone : t.done = s.done)
    (hreq : ∀ k r, w = .inr k → pc.req = some r →
      (s.wakes w).req = some r ∨ e = .request k ∧ r = s.signal + 1)
    (hreleased : ∀ k, w = .inr k → pc = .released →
      e = .release k ∧ ∃ req, (s.wakes w).req = some req ∧ req ≤ s.done)
    (hpass : ∀ r, e ≠ .pass r) : s.Wakens t e where
  tasks := htasks
  count := hcount
  signal := hsignal
  done := hdone
  req := by
    intro k r hr
    rw [hwakes] at hr
    by_cases hk : w = .inr k
    . rw [← hk, Function.update_self] at hr
      rw [← hk]
      exact hreq k r hk hr
    . rw [Function.update_of_ne (Ne.symm hk)] at hr
      exact .inl hr
  released := by
    intro k hr
    rw [hwakes] at hr
    by_cases hk : w = .inr k
    . rw [← hk, Function.update_self] at hr
      rw [← hk]
      exact .inr (hreleased k hk hr)
    . rw [Function.update_of_ne (Ne.symm hk)] at hr
      exact .inl hr
  notPass := hpass

theorem wakens_setTable {e : MergeEvent n} {c : Fin n} {published : Option Nat}
    {table : SlotTable n} (hcount : s.table.count ≤ table.count) (he : e.bumps = false)
    (hpass : ∀ r, e ≠ .pass r) : s.Wakens (s.setTable c published table) e := by
  apply Wakens.wake (.inl c) ((s.setTable c published table).wakes (.inl c))
  . cases published <;> simp [MergeState.setTable, MergeState.setWake]
  . intro r
    left
    cases published <;> rfl
  . cases published <;> exact hcount
  . rw [he]
    cases published <;> rfl
  . cases published <;> rfl
  . intro k r hk
    simp at hk
  . intro k hk
    simp at hk
  . exact hpass

theorem wakens {e : MergeEvent n} (hs : s.wakerStep e = some s') : s.Wakens s' e := by
  unfold MergeState.wakerStep at hs
  cases e with
  | cursor c a =>
    simp only [Option.ite_none_right_eq_some, Option.map_eq_some_iff] at hs
    obtain ⟨hidle, table, htable, rfl⟩ := hs
    exact wakens_setTable (SlotTable.count_step htable) rfl (by simp)
  | resume c ok =>
    simp only at hs
    split at hs
    next hthrows =>
      obtain ⟨table, htable, rfl⟩ := Option.map_eq_some_iff.mp hs
      refine Wakens.wake (.inl c) .idle rfl (fun _ => .inl rfl) (SlotTable.count_step htable)
        ?_ ?_ ?_ ?_ ?_
      all_goals simp [MergeState.setWake, MergeEvent.bumps]
    next =>
      obtain ⟨table, htable, rfl⟩ := Option.map_eq_some_iff.mp hs
      exact wakens_setTable (SlotTable.count_step htable) rfl (by simp)
  | signal w =>
    simp only at hs
    repeat' split at hs
    next hw =>
      obtain rfl := Option.some.inj hs
      refine Wakens.wake w _ rfl (fun _ => .inl rfl) (Nat.le_refl _) ?_ ?_ ?_ ?_ ?_
      all_goals simp [MergeState.setWake, MergeEvent.bumps, WakePc.req]
    next hw =>
      obtain rfl := Option.some.inj hs
      refine Wakens.wake w _ rfl (fun _ => .inl rfl) (Nat.le_refl _) ?_ ?_ ?_ ?_ ?_
      all_goals simp [MergeState.setWake, MergeEvent.bumps, WakePc.req]
    all_goals simp at hs
  | force k =>
    simp only at hs
    split at hs
    next hw =>
      obtain rfl := Option.some.inj hs
      refine Wakens.wake (.inr k) _ rfl (fun _ => .inl rfl) (Nat.le_refl _) ?_ ?_ ?_ ?_ ?_
      all_goals simp [MergeState.setWake, MergeEvent.bumps, WakePc.req]
    next => simp at hs
  | request k =>
    have hreq : (MergeState.setWake { s with signal := s.signal + 1 } (.inr k)
        (.signalled none (some (s.signal + 1)))).wakes = Function.update s.wakes (.inr k)
        (.signalled none (some (s.signal + 1))) := rfl
    simp only at hs
    split at hs
    next hw =>
      obtain rfl := Option.some.inj hs
      refine Wakens.wake (.inr k) _ hreq (fun _ => .inl rfl) (Nat.le_refl _) ?_ ?_ ?_ ?_ ?_
      all_goals simp [MergeState.setWake, MergeEvent.bumps, WakePc.req, eq_comm]
    next hw =>
      obtain rfl := Option.some.inj hs
      refine Wakens.wake (.inr k) _ hreq (fun _ => .inl rfl) (Nat.le_refl _) ?_ ?_ ?_ ?_ ?_
      all_goals simp [MergeState.setWake, MergeEvent.bumps, WakePc.req, eq_comm]
    next => simp at hs
  | acquire w =>
    simp only at hs
    repeat' split at hs
    next slot req hw hactive =>
      obtain rfl := Option.some.inj hs
      cases req with
      | none =>
        refine Wakens.wake w .idle rfl (fun _ => .inl rfl) (Nat.le_refl _) ?_ ?_ ?_ ?_ ?_
        all_goals simp [MergeState.wakeDone, MergeState.setWake, MergeEvent.bumps, WakePc.req]
      | some req =>
        refine Wakens.wake w (.waiting req) rfl (fun _ => .inl rfl) (Nat.le_refl _) ?_ ?_ ?_ ?_ ?_
        all_goals simp [MergeState.wakeDone, MergeState.setWake, MergeEvent.bumps, WakePc.req, hw]
    next hw hactive =>
      obtain rfl := Option.some.inj hs
      refine Wakens.wake w _ rfl (fun _ => .inl rfl) (Nat.le_refl _) ?_ ?_ ?_ ?_ ?_
      all_goals simp [MergeState.setWake, MergeEvent.bumps, WakePc.req, hw]
    next => simp at hs
  | submit w t =>
    simp only at hs
    split at hs
    next slot req hw ht =>
      obtain rfl := Option.some.inj hs
      have htasks : ∀ r, Function.update s.tasks t .load r = s.tasks r ∨
          Function.update s.tasks t .load r = .load := by
        intro r
        rw [Function.update_apply]
        split
        . exact .inr rfl
        . exact .inl rfl
      cases req with
      | none =>
        refine Wakens.wake w .idle rfl htasks (Nat.le_refl _) ?_ ?_ ?_ ?_ ?_
        all_goals simp [MergeState.wakeDone, MergeState.setWake, setTask, MergeEvent.bumps,
          WakePc.req]
      | some req =>
        refine Wakens.wake w (.waiting req) rfl htasks (Nat.le_refl _) ?_ ?_ ?_ ?_ ?_
        all_goals simp [MergeState.wakeDone, MergeState.setWake, setTask, MergeEvent.bumps,
          WakePc.req, hw]
    next => simp at hs
  | release k =>
    simp only at hs
    repeat' split at hs
    next hw hreq =>
      obtain rfl := Option.some.inj hs
      refine Wakens.wake (.inr k) _ rfl (fun _ => .inl rfl) (Nat.le_refl _) ?_ ?_ ?_ ?_ ?_
      all_goals simp [MergeState.setWake, MergeEvent.bumps, WakePc.req, hw, hreq]
    all_goals simp at hs
  | _ => simp at hs

/-- What the owner of the flag may change. -/
structure Drains (s s' : MergeState n) (e : MergeEvent n) (t : Nat) (pc : TaskPc) : Prop where
  active : s'.active = s.active
  wakes : s'.wakes = s.wakes
  signal : s'.signal = s.signal
  table : s'.table = s.table ∨ (∃ i, s.table.step (.merge i) = some s'.table) ∨
    ∃ ok, s.table.step (.resume none ok) = some s'.table
  owns : (s.tasks t).owns = true
  tasks : s'.tasks = Function.update s.tasks t pc
  stays : pc.owns = true
  sig : pc.sig = (s.tasks t).sig ∨ pc.sig = some s.signal
  pass : e ≠ .pass t → pc.pass = none ∨ pc.pass = (s.tasks t).pass
  passes : ∀ r, e = .pass r → r = t ∧ pc.pass = (s.tasks t).sig
  done : s'.done = s.done ∨
    ∃ sig, e = .publish t ∧ (s.tasks t).pass = some sig ∧ s'.done = max s.done sig
  notBumps : e.bumps = false

theorem drains {e : MergeEvent n} (hs : s.drainStep e = some s') : ∃ t pc, s.Drains s' e t pc := by
  unfold MergeState.drainStep at hs
  cases e with
  | load t =>
    simp only at hs
    split at hs
    next ht =>
      obtain rfl := Option.some.inj hs
      refine ⟨t, _, rfl, rfl, rfl, .inl rfl, ?_, rfl, ?_, ?_, ?_, ?_, ?_, rfl⟩
      all_goals simp [ht, TaskPc.owns, TaskPc.sig, TaskPc.pass, setTask]
    next => simp at hs
  | pass t =>
    simp only at hs
    split at hs
    next ht =>
      obtain rfl := Option.some.inj hs
      refine ⟨t, _, rfl, rfl, rfl, .inl rfl, ?_, rfl, ?_, ?_, ?_, ?_, ?_, rfl⟩
      all_goals simp [ht, TaskPc.owns, TaskPc.sig, TaskPc.pass, setTask]
    next => simp at hs
  | lock t =>
    simp only at hs
    split at hs
    next ht _ =>
      obtain rfl := Option.some.inj hs
      refine ⟨t, _, rfl, rfl, rfl, .inl rfl, ?_, rfl, ?_, ?_, ?_, ?_, ?_, rfl⟩
      all_goals simp [ht, TaskPc.owns, TaskPc.sig, TaskPc.pass, setTask]
    next => simp at hs
  | collect t aged =>
    simp only at hs
    repeat' split at hs
    next ht hlt =>
      obtain rfl := Option.some.inj hs
      refine ⟨t, _, rfl, rfl, rfl, .inl rfl, ?_, rfl, ?_, ?_, ?_, ?_, ?_, rfl⟩
      all_goals simp [ht, TaskPc.owns, TaskPc.sig, TaskPc.pass, setTask]
    next ht hlt =>
      obtain rfl := Option.some.inj hs
      refine ⟨t, _, rfl, rfl, rfl, .inl rfl, ?_, rfl, ?_, ?_, ?_, ?_, ?_, rfl⟩
      all_goals simp [ht, TaskPc.owns, TaskPc.sig, TaskPc.pass, setTask]
    next => simp at hs
  | merge t =>
    simp only at hs
    repeat' split at hs
    next ht hpc =>
      obtain rfl := Option.some.inj hs
      refine ⟨t, _, rfl, rfl, rfl, .inl rfl, ?_, rfl, ?_, ?_, ?_, ?_, ?_, rfl⟩
      all_goals simp [ht, TaskPc.owns, TaskPc.sig, TaskPc.pass, setTask, endPass]
    next => simp at hs
    next ht hpc _ table htable =>
      obtain rfl := Option.some.inj hs
      refine ⟨t, _, rfl, rfl, rfl, .inr (.inl ⟨_, htable⟩), ?_, rfl, ?_, ?_, ?_, ?_, ?_, rfl⟩
      all_goals simp [ht, TaskPc.owns, TaskPc.sig, TaskPc.pass, setTask]
    next ht hpc _ htable =>
      obtain rfl := Option.some.inj hs
      refine ⟨t, _, rfl, rfl, rfl, .inl rfl, ?_, rfl, ?_, ?_, ?_, ?_, ?_, rfl⟩
      all_goals simp [ht, TaskPc.owns, TaskPc.sig, TaskPc.pass, setTask]
    all_goals simp at hs
  | merging t ok =>
    simp only at hs
    split at hs
    next ht =>
      obtain ⟨table, htable, rfl⟩ := Option.map_eq_some_iff.mp hs
      split
      . refine ⟨t, _, rfl, rfl, rfl, .inr (.inr ⟨ok, htable⟩), ?_, rfl, ?_, ?_, ?_, ?_, ?_, rfl⟩
        all_goals simp [ht, TaskPc.owns, TaskPc.sig, TaskPc.pass, setTask, endPass]
      . refine ⟨t, s.tasks t, rfl, rfl, rfl, .inr (.inr ⟨ok, htable⟩), ?_,
          (Function.update_eq_self t s.tasks).symm, ?_, ?_, ?_, ?_, ?_, rfl⟩
        all_goals simp [ht, TaskPc.owns]
    next => simp at hs
  | throw t =>
    simp only at hs
    repeat' split at hs
    next ht =>
      obtain rfl := Option.some.inj hs
      refine ⟨t, _, rfl, rfl, rfl, .inl rfl, ?_, rfl, ?_, ?_, ?_, ?_, ?_, rfl⟩
      all_goals simp [ht, TaskPc.owns, TaskPc.sig, TaskPc.pass, setTask, endPass]
    next ht hpc =>
      obtain rfl := Option.some.inj hs
      refine ⟨t, _, rfl, rfl, rfl, .inl rfl, ?_, rfl, ?_, ?_, ?_, ?_, ?_, rfl⟩
      all_goals simp [ht, TaskPc.owns, TaskPc.sig, TaskPc.pass, setTask, endPass]
    all_goals simp at hs
  | publish t =>
    simp only at hs
    split at hs
    next sig seen ht =>
      obtain rfl := Option.some.inj hs
      refine ⟨t, _, rfl, rfl, rfl, .inl rfl, ?_, rfl, ?_, ?_, ?_, ?_, ?_, rfl⟩
      all_goals cases seen <;> simp [ht, TaskPc.owns, TaskPc.sig, TaskPc.pass, setTask]
    next => simp at hs
  | _ => simp at hs

theorem Drains.ownedBy {e : MergeEvent n} {t : Nat} {pc : TaskPc} (h : s.Drains s' e t pc)
    {owner : Option (Waker n ⊕ Nat)} (howner : s.OwnedBy owner) :
    s'.OwnedBy owner ∧ s'.active = true := by
  have ht := howner.setTask (h.stays.trans h.owns.symm)
  refine ⟨⟨h.active.trans howner.1, ?_⟩, ?_⟩
  . intro o
    rw [← ht.2 o]
    unfold Owns
    rw [h.wakes, h.tasks]
    rfl
  . rw [h.active, howner.1, howner.eq_some (o := .inr t) h.owns]
    rfl

/-- What a task may change at J1 and J2. -/
structure Retires (s s' : MergeState n) (e : MergeEvent n) (t : Nat) (pc : TaskPc) : Prop where
  wakes : s'.wakes = s.wakes
  table : s'.table = s.table
  signal : s'.signal = s.signal
  done : s'.done = s.done
  tasks : s'.tasks = Function.update s.tasks t pc
  sig : pc.sig = none ∨ pc.sig = (s.tasks t).sig
  pass : pc.pass = none ∨ pc.pass = (s.tasks t).pass
  scans : ∀ i, i < s.table.count → (s.tasks t).willScan i = true → pc.willScan i = true ∨
    (∃ count, e = .scan t ∧ s.tasks t = .scan i count ∧ i < count ∧
      (s.table.slots i).state ≠ .merging) ∨
    e = .rewin t ∧ s.active = true ∧ s'.active = true
  notPass : ∀ r, e ≠ .pass r
  notBumps : e.bumps = false

theorem retires {e : MergeEvent n} (hs : s.retireStep e = some s') :
    ∃ t pc, s.Retires s' e t pc := by
  unfold MergeState.retireStep at hs
  cases e with
  | count t =>
    simp only at hs
    split at hs
    next ht =>
      obtain rfl := Option.some.inj hs
      refine ⟨t, _, rfl, rfl, rfl, rfl, rfl, ?_, ?_, ?_, ?_, rfl⟩
      all_goals simp [ht, TaskPc.sig, TaskPc.pass, TaskPc.willScan]
    next ht =>
      obtain rfl := Option.some.inj hs
      refine ⟨t, _, rfl, rfl, rfl, rfl, rfl, ?_, ?_, ?_, ?_, rfl⟩
      all_goals simp +contextual [ht, TaskPc.sig, TaskPc.pass, TaskPc.willScan]
    next => simp at hs
  | clear t =>
    simp only at hs
    split at hs
    next ht =>
      obtain rfl := Option.some.inj hs
      refine ⟨t, _, rfl, rfl, rfl, rfl, rfl, ?_, ?_, ?_, ?_, rfl⟩
      all_goals simp [ht, TaskPc.sig, TaskPc.pass, TaskPc.willScan]
    next => simp at hs
  | recheck t =>
    simp only at hs
    split at hs
    next sig ht =>
      obtain rfl := Option.some.inj hs
      refine ⟨t, _, rfl, rfl, rfl, rfl, rfl, ?_, ?_, ?_, ?_, rfl⟩
      all_goals by_cases hsig : s.signal = sig
      all_goals simp [ht, hsig, TaskPc.sig, TaskPc.pass, TaskPc.willScan]
    next => simp at hs
  | scan t =>
    simp only at hs
    split at hs
    next j count ht =>
      split at hs
      next hlt =>
        obtain rfl := Option.some.inj hs
        refine ⟨t, _, rfl, rfl, rfl, rfl, rfl, ?_, ?_, ?_, ?_, rfl⟩
        . left
          split <;> rfl
        . left
          split <;> rfl
        . intro i _ hscan
          simp only [ht, TaskPc.willScan, Bool.and_eq_true, decide_eq_true_eq] at hscan
          split
          next => exact .inl rfl
          next =>
            by_cases hij : i = j
            . right
              left
              exact ⟨count, rfl, by rw [ht, hij], hscan.2, by rwa [hij]⟩
            . left
              simp only [TaskPc.willScan, Bool.and_eq_true, decide_eq_true_eq]
              omega
        . simp
      next hlt =>
        obtain rfl := Option.some.inj hs
        refine ⟨t, .retired, rfl, rfl, rfl, rfl, rfl, .inl rfl, .inl rfl, ?_, ?_, rfl⟩
        . intro i _ hscan
          simp only [ht, TaskPc.willScan, Bool.and_eq_true, decide_eq_true_eq] at hscan
          omega
        . simp
    next => simp at hs
  | rewin t =>
    simp only at hs
    split at hs
    next ht =>
      split at hs
      next hactive =>
        obtain rfl := Option.some.inj hs
        refine ⟨t, .retired, rfl, rfl, rfl, rfl, rfl, .inl rfl, .inl rfl, ?_, ?_, rfl⟩
        . intro i _ _
          exact .inr (.inr ⟨rfl, hactive, hactive⟩)
        . simp
      next hactive =>
        obtain rfl := Option.some.inj hs
        refine ⟨t, .load, rfl, rfl, rfl, rfl, rfl, .inl rfl, .inl rfl, ?_, ?_, rfl⟩
        . intro i _ _
          exact .inl rfl
        . simp
    next => simp at hs
  | _ => simp at hs

theorem step_cases {e : MergeEvent n} (hs : s.step e = some s') :
    s.Wakens s' e ∨ (∃ t pc, s.Drains s' e t pc) ∨ ∃ t pc, s.Retires s' e t pc := by
  unfold MergeState.step at hs
  split at hs
  all_goals
    first
    | exact .inl (wakens hs)
    | exact .inr (.inl (drains hs))
    | exact .inr (.inr (retires hs))

end Step

end MergeState
end Leaves
