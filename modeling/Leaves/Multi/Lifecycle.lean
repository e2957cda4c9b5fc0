import Leaves.Multi.SlotSteps

/-!
The life of a slot: it is owned by one cursor until it is merged, and it is recycled once behind
every merge, unless two of the threads get in each other's way.
-/

namespace Leaves

open Function

namespace SlotTable

variable {n : Nat}

/--
No thread comes between two steps of another one: a slot is pinned while it is readable, a reclaimed
slot has no other pin, a recycled one has no pin and nobody else is at its end, `merged` is not
overwritten, and a slot that could not be merged has its owner.
-/
def Undisturbed (s : SlotTable n) : SlotEvent n → Prop
  | .resume c _ =>
    match (s.users c).pc with
    | .checked i => (s.slots i).state.readable = true
    | .reset => ∀ i, (s.users c).writeSource = some i → (s.slots i).refs = 1
    | .detach => ∀ i, (s.users c).writeSource = some i → (s.slots i).state ≠ .merged
    | .unpinned i => (s.slots i).state = .merged →
      (s.slots i).refs = 0 ∧ ∀ d, d ≠ c → (s.users d).pc.last ≠ some i
    | .failed i => ∃ d, (s.users d).writeSource = some i ∧ (s.users d).pc ≠ .park
    | _ => True
  | _ => True

def UndisturbedRun (s : SlotTable n) : List (SlotEvent n) → Prop
  | [] => True
  | e :: es => s.Undisturbed e ∧ ∀ s', s.step e = some s' → UndisturbedRun s' es

theorem inv_create (n : Nat) : (create n).Inv where
  refs := by simp [create, Slot.fresh, SlotUser.pins, Pc.pin]
  txnRefs := by simp [create, Slot.fresh, SlotUser.txnPins, Pc.txnPin]
  wf := by simp [create, SlotUser.Wf]
  requires := by
    intro c i
    constructor <;> simp [create, Pc.recycled, Pc.merged]
  beyond := by simp [create]
  unique := by simp [create, SlotUser.Owns]
  owned := by simp [create, Slot.fresh, SlotState.owned]
  inMain := by simp [create, Slot.fresh]
  merges := by simp [create, Slot.fresh]
  last := by simp [create, Slot.fresh]
  recycler := by simp [create, Pc.recycled]
  merger := by simp [create, Pc.mergeTask]
  thrown := rfl

theorem Inv.start {s s' : SlotTable n} (h : s.Inv) {c : Option (Fin n)} {a : CursorAction}
    (hpc : (s.users c).pc = .idle) (hs : s.start c (s.users c) a = some s') : s'.Inv := by
  have hidle : ({ s.users c with inTransaction := false } : SlotUser) =
      { s.users c with inTransaction := false, pc := .idle } := by
    rw [← hpc]
  unfold SlotTable.start at hs
  cases a with
  | startTransaction =>
    simp only at hs
    split at hs
    next i hT hws =>
      split at hs
      next hstate =>
        rw [← Option.some.inj hs]
        exact h.startTransaction hpc hT hws hstate
      next hstate =>
        rw [← Option.some.inj hs]
        exact h.leave hpc hT hws (Or.inl rfl) hstate
      next hattached hmerged =>
        rw [← Option.some.inj hs]
        refine h.leave hpc hT hws (Or.inr (Or.inl rfl)) ?_
        exact (h.state_idle hpc hT hws).resolve_left hattached
    next => simp at hs
  | claim i =>
    simp only [Option.ite_none_right_eq_some, Option.some.injEq] at hs
    obtain ⟨⟨hT, hws, hlt, hstate⟩, rfl⟩ := hs
    exact h.claim hpc hT hws hlt hstate
  | alloc =>
    simp only [Option.ite_none_right_eq_some, Option.some.injEq] at hs
    obtain ⟨⟨hT, hws, -⟩, rfl⟩ := hs
    exact h.alloc hpc hT hws
  | commit full =>
    simp only at hs
    split at hs
    next i hT hws =>
      split at hs
      . rw [← Option.some.inj hs]
        exact h.endTransaction hpc hT hws (Or.inl ⟨rfl, rfl⟩) rfl rfl rfl rfl
      . rw [← Option.some.inj hs, hidle]
        exact h.endTransaction hpc hT hws (Or.inr ⟨rfl, rfl⟩) rfl rfl rfl rfl
    next => simp at hs
  | rollback =>
    simp only at hs
    split at hs
    next i hT hws =>
      split at hs
      . rw [← Option.some.inj hs, hidle]
        exact h.endTransaction hpc hT hws (Or.inr ⟨rfl, rfl⟩) rfl rfl rfl rfl
      . rw [← Option.some.inj hs]
        exact h.endTransaction hpc hT hws (Or.inl ⟨rfl, rfl⟩) rfl rfl rfl rfl
    next => simp at hs
  | release =>
    simp only at hs
    split at hs
    next i hT hws =>
      split at hs
      next hstate =>
        rw [← Option.some.inj hs]
        exact h.leave hpc hT hws (Or.inr (Or.inr rfl)) (Or.inl hstate)
      next hattached =>
        rw [← Option.some.inj hs]
        refine h.leave hpc hT hws (Or.inr (Or.inl rfl)) ?_
        exact (h.state_idle hpc hT hws).resolve_left hattached
    next => simp at hs
  | check i =>
    simp only [Option.ite_none_right_eq_some, Option.some.injEq] at hs
    obtain ⟨-, rfl⟩ := hs
    exact h.check hpc i
  | parkSource i =>
    simp only [Option.ite_none_right_eq_some, Option.some.injEq] at hs
    obtain ⟨hi, rfl⟩ := hs
    exact h.parkSource hpc hi

theorem Inv.resume {s s' : SlotTable n} (h : s.Inv) {c : Option (Fin n)} {ok : Bool}
    (hundisturbed : s.Undisturbed (.resume c ok))
    (hs : s.resume c (s.users c) ok = some s') : s'.Inv := by
  unfold Undisturbed at hundisturbed
  simp only at hundisturbed
  unfold SlotTable.resume at hs
  split at hs
  next i hpc =>
    rw [← Option.some.inj hs]
    exact h.resume_claim hpc
  next i hpc hws =>
    rw [← Option.some.inj hs]
    exact h.resume_reinit hpc hws
  next first i hpc hws =>
    split at hs
    . rw [← Option.some.inj hs]
      exact h.resume_opened hpc hws
    . split at hs
      next hfirst =>
        rw [hfirst] at hpc
        rw [← Option.some.inj hs]
        exact h.resume_failed_first hpc hws
      next hfirst =>
        rw [Bool.not_eq_true] at hfirst
        rw [hfirst] at hpc
        rw [← Option.some.inj hs]
        exact h.resume_failed_later hpc hws
  next i hpc hws =>
    have hexp := (h.requires c i).source hws
    simp only [SlotUser.Expects, hpc] at hexp
    rw [if_pos hexp] at hs
    rw [← Option.some.inj hs]
    exact h.resume_sawMerged hpc hws
  next i hpc hws =>
    rw [← Option.some.inj hs]
    exact h.resume_reclaim hpc hws
  next i hpc hws =>
    rw [hpc] at hundisturbed
    have hrefs := hundisturbed i hws
    rw [h.txnRefs_reset hpc hws hrefs] at hs
    rw [← Option.some.inj hs]
    exact h.resume_reset hpc hws hrefs
  next i hpc hws =>
    rw [← Option.some.inj hs]
    exact h.resume_park hpc hws
  next i hpc hws =>
    rw [hpc] at hundisturbed
    rw [← Option.some.inj hs]
    exact h.resume_detach hpc hws (hundisturbed i hws)
  next i hpc =>
    rw [hpc] at hundisturbed
    rw [← Option.some.inj hs]
    exact h.resume_checked hpc hundisturbed
  next i hpc =>
    rw [← Option.some.inj hs]
    exact h.resume_source hpc
  next i hpc =>
    rw [← Option.some.inj hs]
    exact h.resume_unpin hpc
  next i hpc =>
    rw [hpc] at hundisturbed
    rw [← Option.some.inj hs]
    exact h.resume_unpinned hpc hundisturbed
  next i hpc =>
    rw [h.txnRefs_of_refs ((h.requires c i).recycled (by rw [hpc]; rfl)).2] at hs
    rw [← Option.some.inj hs]
    exact h.resume_recycle hpc
  next i hpc =>
    rw [← Option.some.inj hs]
    exact h.resume_emptied hpc
  next i hpc =>
    rw [← Option.some.inj hs]
    exact h.resume_taken hpc
  next i hpc =>
    rw [← Option.some.inj hs]
    exact h.resume_mergePinned hpc
  next i hpc =>
    simp only at hs
    split at hs
    . rw [← Option.some.inj hs]
      exact h.resume_applying hpc (Or.inl ⟨rfl, rfl⟩)
    . rw [← Option.some.inj hs]
      exact h.resume_applying hpc (Or.inr ⟨rfl, rfl⟩)
  next i hpc =>
    rw [← Option.some.inj hs]
    exact h.resume_applied hpc
  next i hpc =>
    rw [hpc] at hundisturbed
    obtain ⟨d, hws, hpark⟩ := hundisturbed
    rw [← Option.some.inj hs]
    exact h.resume_failed hpc hws hpark
  next i hpc =>
    rw [← Option.some.inj hs]
    exact h.resume_failedUnpin hpc
  next => simp at hs

theorem Inv.step {s s' : SlotTable n} (h : s.Inv) {e : SlotEvent n}
    (hundisturbed : s.Undisturbed e) (hs : s.step e = some s') : s'.Inv := by
  unfold SlotTable.step at hs
  cases e with
  | cursor c a =>
    simp only [Option.ite_none_right_eq_some] at hs
    exact h.start hs.1 hs.2
  | merge i =>
    simp only [Option.ite_none_right_eq_some, Option.some.injEq] at hs
    obtain ⟨⟨hpc, hstate⟩, rfl⟩ := hs
    exact h.merge hpc hstate
  | resume c ok => exact h.resume hundisturbed hs

/-- A thread does not change what the other ones do next. -/
theorem users_start {s s' : SlotTable n} {c d : Option (Fin n)} {u : SlotUser} {a : CursorAction}
    (hd : d ≠ c) (hs : s.start c u a = some s') : s'.users d = s.users d := by
  unfold SlotTable.start at hs
  cases a
  all_goals
    simp only at hs
    repeat' split at hs
  all_goals
    first
    | rw [← Option.some.inj hs]
      simp [hd]
    | simp at hs

theorem users_resume {s s' : SlotTable n} {c d : Option (Fin n)} {u : SlotUser} {ok : Bool}
    (hd : d ≠ c) (hs : s.resume c u ok = some s') : s'.users d = s.users d := by
  unfold SlotTable.resume at hs
  repeat' split at hs
  all_goals
    first
    | rw [← Option.some.inj hs]
      simp [hd]
    | simp at hs

/-- A thread whose step is not about a write source goes on so. -/
theorem other_resume {s s' : SlotTable n} {c : Option (Fin n)} {u : SlotUser} {ok : Bool}
    (hu : s.users c = u) (h : u.pc.other = true) (hs : s.resume c u ok = some s') :
    (s'.users c).writeSource = u.writeSource ∧ (s'.users c).pc.other = true := by
  obtain ⟨pc, ws, wc, inTransaction, sources⟩ := u
  cases pc
  all_goals
    simp only [Pc.other, Bool.false_eq_true] at h
  all_goals
    simp only [SlotTable.resume] at hs
    repeat' split at hs
  all_goals
    first
    | rw [← Option.some.inj hs]
      simp [hu, Pc.other]
    | simp at hs

/-- The merge task has no write source. -/
def TaskFree (s : SlotTable n) : Prop :=
  (s.users none).writeSource = none ∧ (s.users none).pc.other = true

theorem TaskFree.step {s s' : SlotTable n} (h : s.TaskFree) {e : SlotEvent n}
    (hs : s.step e = some s') : s'.TaskFree := by
  unfold SlotTable.step at hs
  cases e with
  | cursor c a =>
    simp only [Option.ite_none_right_eq_some] at hs
    rw [TaskFree, users_start (by simp) hs.2]
    exact h
  | merge i =>
    simp only [Option.ite_none_right_eq_some, Option.some.injEq] at hs
    obtain ⟨-, rfl⟩ := hs
    exact ⟨by simp [h.1], by simp [Pc.other]⟩
  | resume c ok =>
    cases c with
    | none =>
      obtain ⟨hws, hother⟩ := other_resume rfl h.2 hs
      exact ⟨hws.trans h.1, hother⟩
    | some c =>
      rw [TaskFree, users_resume (by simp) hs]
      exact h

/-- What holds of the slots at any time. -/
structure Safe (s : SlotTable n) : Prop where
  pins : ∀ i, (s.slots i).refs = ∑ c, (s.users c).pins i
  /-- a slot that is written or waits for the next transaction has exactly one owner -/
  owner : ∀ i, (s.slots i).state.owned = true →
    ∃ c, (s.users (some c)).Owns i ∧ ∀ d, (s.users d).Owns i → d = some c
  /-- behind each merge the slot has been reset once, unless it is still `merged` -/
  recycled : ∀ i, (s.slots i).merges =
    (s.slots i).recycles + if (s.slots i).state = .merged then 1 else 0
  /-- a merged slot without a pin is about to be recycled -/
  pending : ∀ i, (s.slots i).state = .merged → (s.slots i).refs = 0 →
    ∃ c, (s.users c).pc.last = some i
  thrown : s.thrown = false

theorem Inv.safe {s : SlotTable n} (h : s.Inv) (htask : s.TaskFree) : s.Safe := by
  refine ⟨h.refs, ?_, h.merges, h.last, h.thrown⟩
  intro i ho
  obtain ⟨c, hc⟩ := h.owned i ho
  cases c with
  | none =>
    rcases hc with hc | hc
    . rw [htask.1] at hc
      simp at hc
    . have hother := htask.2
      rw [hc] at hother
      simp [Pc.other] at hother
  | some c => exact ⟨c, hc, fun d hd => h.unique d (some c) i hd hc⟩

theorem Inv.run {s s' : SlotTable n} (h : s.Inv) (htask : s.TaskFree) {es : List (SlotEvent n)}
    (hundisturbed : s.UndisturbedRun es) (hrun : s.run es = some s') : s'.Inv ∧ s'.TaskFree := by
  induction es generalizing s with
  | nil =>
    obtain rfl := Option.some.inj hrun
    exact ⟨h, htask⟩
  | cons e es ih =>
    simp only [SlotTable.run, Option.bind_eq_some_iff] at hrun
    obtain ⟨t, ht, hrun⟩ := hrun
    exact ih (h.step hundisturbed.1 ht) (htask.step ht) (hundisturbed.2 t ht) hrun

end SlotTable

instance (u : SlotUser) (i : Nat) : Decidable (u.Owns i) := inferInstanceAs (Decidable (_ ∨ _))

/-- The thread resets the slot in its next step. -/
def SlotUser.Resets (u : SlotUser) (i : Nat) : Prop :=
  u.pc = .recycle i ∨ u.pc = .reset ∧ u.writeSource = some i

namespace SlotTable

theorem Inv.resets {s : SlotTable n} (h : s.Inv) {c : Option (Fin n)} {ok : Bool} {i : Nat}
    (hundisturbed : s.Undisturbed (.resume c ok)) (hreset : (s.users c).Resets i) :
    (s.slots i).refs = (if (s.users c).writeSource = some i then 1 else 0) ∧
      (s.slots i).inMain = true := by
  rcases hreset with hpc | ⟨hpc, hws⟩
  . obtain ⟨hm, hz⟩ := (h.requires c i).recycled (by rw [hpc]; rfl)
    have hws : (s.users c).writeSource ≠ some i := by
      intro hws
      have := h.pinned hws
      omega
    exact ⟨by rw [hz, if_neg hws], h.inMain i (by rw [hm]; rfl)⟩
  . unfold Undisturbed at hundisturbed
    simp only [hpc] at hundisturbed
    have hexp := (h.requires c i).source hws
    simp only [SlotUser.Expects, hpc] at hexp
    exact ⟨by rw [hundisturbed i hws, if_pos hws], h.inMain i (by rw [hexp]; rfl)⟩

/--
As long as no thread is disturbed between two of its steps, every slot in use has one owner, merged
slots are recycled once, a slot is reset without foreign pins and with its data in the main
database, and nobody meets an active transaction.
-/
theorem slotLifecycle (n : Nat) (es : List (SlotEvent n)) (s : SlotTable n)
    (hrun : (create n).run es = some s) (hundisturbed : (create n).UndisturbedRun es) :
    s.Safe ∧ ∀ c ok, s.Undisturbed (.resume c ok) → ∀ i, (s.users c).Resets i →
      (s.slots i).refs = (if (s.users c).writeSource = some i then 1 else 0) ∧
        (s.slots i).inMain = true := by
  obtain ⟨hinv, htask⟩ := (inv_create n).run ⟨rfl, rfl⟩ hundisturbed hrun
  exact ⟨hinv.safe htask, fun _ _ hu _ hreset => hinv.resets hu hreset⟩

theorem undisturbedRun_cons {s t : SlotTable n} {e : SlotEvent n} {es : List (SlotEvent n)}
    (hs : s.step e = some t) (h : s.Undisturbed e) (hrun : t.UndisturbedRun es) :
    s.UndisturbedRun (e :: es) := by
  refine ⟨h, ?_⟩
  intro s' hs'
  rw [hs, Option.some.injEq] at hs'
  rw [← hs']
  exact hrun

/-- A cursor writes until the threshold is reached, its slot is merged and recycled. -/
theorem slotLifecycle_recycle :
    ∃ es s, (create 1).run es = some s ∧ s.Safe ∧ (s.slots 0).recycles = 1 := by
  let es : List (SlotEvent 1) := [.cursor 0 .alloc, .resume (some 0) true,
    .resume (some 0) true, .cursor 0 (.commit true), .resume (some 0) true,
    .resume (some 0) true, .resume (some 0) true, .merge 0, .resume none true,
    .resume none true, .resume none true, .resume none true, .resume none true,
    .resume none true, .resume none true, .resume none true]
  refine ⟨es, _, rfl, (slotLifecycle 1 es _ rfl ?_).1, rfl⟩
  repeat refine undisturbedRun_cons rfl (by first | trivial | exact fun _ => ⟨rfl, by decide⟩) ?_
  trivial

/-- A reader has pinned the slot when its owner reclaims it. -/
theorem slotLifecycle_reader :
    ∃ s, (create 2).run [.cursor 0 .alloc, .resume (some 0) true, .resume (some 0) true,
      .cursor 0 (.commit false), .cursor 1 (.check 0), .resume (some 1) true,
      .resume (some 1) true, .merge 0, .resume none true, .resume none true, .resume none true,
      .resume none true, .resume none true, .cursor 0 .startTransaction, .resume (some 0) true,
      .resume (some 0) true, .resume (some 0) true, .cursor 0 .startTransaction,
      .resume (some 0) true, .resume (some 0) true] = some s ∧
    s.thrown = true ∧ (s.slots 0).state = .firstWriting ∧ ∀ c, ¬ (s.users c).Owns 0 := by
  refine ⟨_, rfl, rfl, rfl, ?_⟩
  decide

end SlotTable
end Leaves
