import Leaves.Multi.Ownership

/-!
No slot stays `merging` without a task or a waker that takes care of it, and who waits for a pass
waits until one that started after the request is over.
-/

namespace Leaves

open Function

namespace MergeState

variable {n : Nat}

/-- The waker has not finished its wake for the slot, or it is about to submit a task. -/
def Pending (s : MergeState n) (i : Nat) (w : Waker n) : Prop :=
  match s.wakes w with
  | .published j => j = i
  | .signalled slot _ => slot = some i
  | .won .. => True
  | _ => False

/-- A cursor that recycles the slot has found it `merged`, and it may leave without a wake. -/
def Recycles (s : MergeState n) : Waker n → Prop
  | .inl c => (s.table.users (some c)).pc.recycled ≠ none
  | .inr _ => False

def Covered (s : MergeState n) (i : Nat) : Prop :=
  (∃ t, (s.tasks t).willScan i = true) ∨ ∃ w, s.Pending i w ∧ ¬ s.Recycles w

/-- Where a cursor is at the slots while it wakes the task. -/
def WakeOk (s : MergeState n) (c : Fin n) : Prop :=
  match s.wakes (.inl c) with
  | .idle => True
  | .published i => s.table.Parks c i
  | _ => (s.table.users (some c)).pc = .idle

structure Inv (s : MergeState n) : Prop where
  bounded : s.table.Bounded
  owned : ∃ owner, s.OwnedBy owner
  wakes : ∀ c, s.WakeOk c
  covered : ∀ i, (s.table.slots i).state = .merging → s.Covered i

theorem inv_create (n : Nat) : (create n).Inv where
  bounded := SlotTable.bounded_create n
  owned := ⟨none, ownedBy_create n⟩
  wakes := by simp [create, WakeOk]
  covered := by simp [create, SlotTable.create, Slot.fresh]

section Covered

variable {s s' : MergeState n} {owner : Option (Waker n ⊕ Nat)} {i : Nat}

/-- Who has won the flag takes care of every slot. -/
theorem OwnedBy.covered (h : s.OwnedBy owner) (hwakes : ∀ c, s.WakeOk c)
    (hactive : s.active = true) (i : Nat) : s.Covered i := by
  have hsome := h.1
  rw [hactive] at hsome
  obtain ⟨o, rfl⟩ := Option.isSome_iff_exists.mp hsome.symm
  have ho := (h.2 o).mpr rfl
  cases o with
  | inl w =>
    right
    refine ⟨w, ?_⟩
    unfold Owns at ho
    unfold Pending
    cases hw : s.wakes w with
    | won slot req =>
      refine ⟨trivial, ?_⟩
      cases w with
      | inl c =>
        have hc := hwakes c
        unfold WakeOk at hc
        simp only [hw] at hc
        simp [Recycles, hc, Pc.recycled]
      | inr k => simp [Recycles]
    | _ => simp [hw, WakePc.owns] at ho
  | inr t =>
    left
    exact ⟨t, TaskPc.willScan_of_owns ho i⟩

theorem Covered.setWake (h : s.Covered i) {w : Waker n} {pc : WakePc}
    (hpc : s.Pending i w → (s.setWake w pc).Pending i w) : (s.setWake w pc).Covered i := by
  rcases h with ⟨t, ht⟩ | ⟨r, hr, hpark⟩
  . left
    exact ⟨t, ht⟩
  . right
    refine ⟨r, ?_, ?_⟩
    . by_cases hrw : r = w
      . rw [hrw] at hr ⊢
        exact hpc hr
      . unfold Pending at *
        simp only [MergeState.setWake, Function.update_of_ne hrw]
        exact hr
    . cases r <;> exact hpark

end Covered

section Step

variable {s s' : MergeState n}

theorem WakeOk.congr {c : Fin n} (h : s.WakeOk c)
    (hu : s'.table.users (some c) = s.table.users (some c))
    (hw : s'.wakes (.inl c) = s.wakes (.inl c)) : s'.WakeOk c := by
  unfold WakeOk SlotTable.Parks at *
  rw [hu, hw]
  exact h

theorem WakeOk.owns {c : Fin n} (h : s.WakeOk c) {ok : Bool} {table : SlotTable n}
    (hs : s.table.step (.resume (some c) ok) = some table) :
    (s.wakes (.inl c)).owns = false ∧
      ∀ i, s.Pending i (.inl c) → s.wakes (.inl c) = .published i ∧ s.table.Parks c i := by
  have hpc : (s.table.users (some c)).pc ≠ .idle := by
    intro hpc
    unfold SlotTable.step SlotTable.resume at hs
    simp [hpc] at hs
  unfold WakeOk at h
  unfold Pending
  cases hw : s.wakes (.inl c) <;> simp_all [WakePc.owns]

/-- While somebody has the flag no slot is left behind. -/
theorem Inv.of_active (hbounded : s.table.Bounded) (howned : ∃ owner, s.OwnedBy owner)
    (hwakes : ∀ c, s.WakeOk c) (hactive : s.active = true) : s.Inv where
  bounded := hbounded
  owned := howned
  wakes := hwakes
  covered := by
    obtain ⟨owner, howner⟩ := howned
    intro i _
    exact howner.covered hwakes hactive i

theorem Inv.setWake (h : s.Inv) {w : Waker n} {pc : WakePc}
    (howned : pc.owns = (s.wakes w).owns) (hok : ∀ c, w = .inl c → (s.setWake w pc).WakeOk c)
    (hpending : ∀ i, s.Pending i w → (s.setWake w pc).Pending i w) : (s.setWake w pc).Inv where
  bounded := h.bounded
  owned := by
    obtain ⟨owner, howner⟩ := h.owned
    exact ⟨owner, howner.setWake howned⟩
  wakes := by
    intro c
    by_cases hc : w = .inl c
    . exact hok c hc
    . exact (h.wakes c).congr rfl (Function.update_of_ne (Ne.symm hc) _ _)
  covered := by
    intro i hi
    exact (h.covered i hi).setWake (hpending i)

theorem Covered.setTable {i : Nat} (h : s.Covered i) {c : Fin n} {published : Option Nat}
    {table : SlotTable n} (hother : ∀ d, d ≠ c → table.users (some d) = s.table.users (some d))
    (hpending : s.Pending i (.inl c) → ¬ s.Recycles (.inl c) →
      published = none ∧ (table.users (some c)).pc.recycled = none) :
    (s.setTable c published table).Covered i := by
  rcases h with ⟨t, ht⟩ | ⟨w, hw, hrecycles⟩
  . left
    refine ⟨t, ?_⟩
    cases published <;> exact ht
  . right
    by_cases hc : w = .inl c
    . subst hc
      obtain ⟨rfl, hrec⟩ := hpending hw hrecycles
      refine ⟨.inl c, hw, ?_⟩
      simp [Recycles, MergeState.setTable, hrec]
    . refine ⟨w, ?_, ?_⟩
      . unfold Pending at *
        cases published with
        | none => exact hw
        | some j =>
          simp only [MergeState.setTable, MergeState.setWake, Function.update_of_ne hc]
          exact hw
      . cases w with
        | inl d =>
          have hd : d ≠ c := by
            intro hd
            exact hc (by rw [hd])
          unfold Recycles at *
          cases published <;>
            simpa [MergeState.setTable, MergeState.setWake, hother d hd] using hrecycles
        | inr k => simp [Recycles]

/-- A cursor makes a step at the slots, and it parks what it publishes. -/
theorem Inv.setTable (h : s.Inv) {c : Fin n} {published : Option Nat} {table : SlotTable n}
    (hbounded : table.Bounded) (howns : (s.wakes (.inl c)).owns = false)
    (hother : ∀ d, d ≠ c → table.users (some d) = s.table.users (some d))
    (hpark : ∀ i, published = some i →
      (table.users (some c)).pc = .park ∧ (table.users (some c)).writeSource = some i)
    (hok : published = none → WakeOk { s with table } c)
    (hmerging : ∀ i, (table.slots i).state = .merging →
      (s.table.slots i).state = .merging ∨ published = some i)
    (hpending : ∀ i, (s.table.slots i).state = .merging → s.Pending i (.inl c) →
      ¬ s.Recycles (.inl c) → published = none ∧ (table.users (some c)).pc.recycled = none) :
    (s.setTable c published table).Inv where
  bounded := by cases published <;> exact hbounded
  owned := by
    obtain ⟨owner, howner⟩ := h.owned
    exact ⟨owner, howner.setTable howns⟩
  wakes := by
    intro d
    by_cases hd : d = c
    . subst hd
      cases published with
      | none => exact hok rfl
      | some i =>
        unfold WakeOk SlotTable.Parks
        simp [MergeState.setTable, MergeState.setWake, hpark i rfl]
    . apply (h.wakes d).congr
      . cases published <;> exact hother d hd
      . cases published with
        | none => rfl
        | some i => simp [MergeState.setTable, MergeState.setWake, hd]
  covered := by
    intro i hi
    have htable : (s.setTable c published table).table = table := by
      cases published <;> rfl
    rw [htable] at hi
    rcases hmerging i hi with hold | hnew
    . exact (h.covered i hold).setTable hother (hpending i hold)
    . obtain rfl := hnew
      right
      refine ⟨.inl c, ?_, ?_⟩
      . simp [Pending, MergeState.setTable, MergeState.setWake]
      . simp [Recycles, MergeState.setTable, MergeState.setWake, (hpark i rfl).1, Pc.recycled]

theorem Inv.cursor (h : s.Inv) {c : Fin n} {a : CursorAction} {table : SlotTable n}
    (hidle : s.wakes (.inl c) = .idle) (htable : s.table.step (.cursor c a) = some table) :
    (s.setTable c (s.table.publishes c a) table).Inv := by
  have hstart : s.table.start (some c) (s.table.users (some c)) a = some table := by
    unfold SlotTable.step at htable
    simp only [Option.ite_none_right_eq_some] at htable
    exact htable.2
  apply h.setTable
  . exact h.bounded.step htable
  . rw [hidle]
    rfl
  . intro d hd
    exact SlotTable.users_start (by simpa using hd) hstart
  . exact fun i => SlotTable.parks_start hstart
  . intro _
    simp [WakeOk, hidle]
  . exact fun i => SlotTable.merging_start hstart
  . intro i _ hp
    simp [Pending, hidle] at hp

theorem Inv.resume (h : s.Inv) {c : Fin n} {ok : Bool} {table : SlotTable n}
    (htable : s.table.step (.resume (some c) ok) = some table) :
    (s.setTable c (s.table.resumePublishes c ok) table).Inv := by
  have hresume : s.table.resume (some c) (s.table.users (some c)) ok = some table := htable
  obtain ⟨howns, hpark⟩ := (h.wakes c).owns htable
  apply h.setTable
  . exact h.bounded.step htable
  . exact howns
  . intro d hd
    exact SlotTable.users_resume (by simpa using hd) hresume
  . exact fun i => SlotTable.parks_resume hresume
  . intro _
    have hok := h.wakes c
    unfold WakeOk at *
    cases hw : s.wakes (.inl c) with
    | idle => trivial
    | published i =>
      simp only [hw] at hok ⊢
      exact hok.resume hresume
    | _ =>
      simp only [hw] at hok
      simp [SlotTable.step, SlotTable.resume, hok] at htable
  . exact fun i => SlotTable.merging_resume hresume
  . intro i hi hp hrec
    obtain ⟨_, hpark⟩ := hpark i hp
    have hpc : (s.table.users (some c)).pc.recycled = none := by
      simpa [Recycles] using hrec
    exact ⟨hpark.resumePublishes ok, hpark.recycled hresume hpc (by rw [hi]; simp)⟩

/-- The exception leaves a function that has found the slot `merged`. -/
theorem Inv.throws (h : s.Inv) {c : Fin n} {ok : Bool} {table : SlotTable n}
    (hthrows : s.table.throws (some c) = true)
    (htable : s.table.step (.resume (some c) ok) = some table) :
    (MergeState.setWake { s with table } (.inl c) .idle).Inv := by
  have hresume : s.table.resume (some c) (s.table.users (some c)) ok = some table := htable
  obtain ⟨howns, -⟩ := (h.wakes c).owns htable
  unfold SlotTable.throws at hthrows
  split at hthrows
  next i hpc =>
    have hrefs : 0 < (s.table.slots i).txnRefs := by simpa using hthrows
    have hslots : table.slots = s.table.slots := by
      unfold SlotTable.resume at hresume
      simp only [hpc, hrefs, ↓reduceIte, Option.some.injEq] at hresume
      rw [← hresume]
      rfl
    have hother : ∀ d, d ≠ c → table.users (some d) = s.table.users (some d) := by
      intro d hd
      exact SlotTable.users_resume (by simpa using hd) hresume
    constructor
    . exact h.bounded.step htable
    . obtain ⟨owner, howner⟩ := h.owned
      have howner : MergeState.OwnedBy { s with table } owner := howner
      exact ⟨owner, howner.setWake howns.symm⟩
    . intro d
      by_cases hd : d = c
      . subst hd
        simp [WakeOk, MergeState.setWake]
      . apply (h.wakes d).congr (hother d hd)
        simp [MergeState.setWake, hd]
    . intro j hj
      have hold : (s.table.slots j).state = .merging := by
        rw [← hslots]
        exact hj
      rcases h.covered j hold with ⟨t, ht⟩ | ⟨w, hw, hrec⟩
      . left
        exact ⟨t, ht⟩
      . have hwc : w ≠ .inl c := by
          intro hwc
          subst hwc
          exact hrec (by simp [Recycles, hpc, Pc.recycled])
        right
        refine ⟨w, ?_, ?_⟩
        . unfold Pending at *
          simp only [MergeState.setWake, Function.update_of_ne hwc]
          exact hw
        . cases w with
          | inl d =>
            have hd : d ≠ c := by
              intro hd
              exact hwc (by rw [hd])
            unfold Recycles at *
            simpa [MergeState.setWake, hother d hd] using hrec
          | inr k => simp [Recycles]
  next => simp at hthrows

/-- A cursor that is not at a slot may go on with its wake. -/
theorem Inv.wakesOk (h : s.Inv) {t : MergeState n} {w : Waker n} {pc : WakePc}
    (hwakes : t.wakes = Function.update s.wakes w pc) (htable : t.table = s.table)
    (hidle : ∀ c, w = .inl c → (s.table.users (some c)).pc = .idle) (hpc : ∀ i, pc ≠ .published i)
    (c : Fin n) : t.WakeOk c := by
  by_cases hc : w = .inl c
  . unfold WakeOk
    rw [hwakes, htable, hc, Function.update_self]
    cases pc with
    | published i => exact absurd rfl (hpc i)
    | idle => trivial
    | _ => exact hidle c hc
  . apply (h.wakes c).congr
    . rw [htable]
    . rw [hwakes, Function.update_of_ne (Ne.symm hc)]

/-- The pool makes a task of the flag that the caller has won. -/
theorem Inv.submits (h : s.Inv) {w : Waker n} {t : Nat} {pc : WakePc}
    (hw : (s.wakes w).owns = true) (hpc : pc.owns = false) (hpub : ∀ i, pc ≠ .published i)
    (hidle : ∀ c, w = .inl c → (s.table.users (some c)).pc = .idle) :
    ((s.setTask t .load).setWake w pc).Inv := by
  obtain ⟨owner, howner⟩ := h.owned
  refine Inv.of_active h.bounded ⟨_, howner.submits hw hpc⟩ (h.wakesOk rfl rfl hidle hpub) ?_
  obtain rfl : owner = some (.inl w) := howner.eq_some hw
  exact howner.1

/-- Who finds the flag taken leaves the slot to its owner. -/
theorem Inv.leaves (h : s.Inv) {w : Waker n} {pc : WakePc} (hactive : s.active = true)
    (hw : (s.wakes w).owns = false) (hpc : pc.owns = false) (hpub : ∀ i, pc ≠ .published i)
    (hidle : ∀ c, w = .inl c → (s.table.users (some c)).pc = .idle) : (s.setWake w pc).Inv := by
  obtain ⟨owner, howner⟩ := h.owned
  exact Inv.of_active h.bounded ⟨owner, howner.setWake (hpc.trans hw.symm)⟩
    (h.wakesOk rfl rfl hidle hpub) hactive

/-- A cursor in the middle of its wake has parked its slot. -/
theorem Inv.idle (h : s.Inv) {w : Waker n} (hw : s.wakes w ≠ .idle)
    (hpub : ∀ i, s.wakes w ≠ .published i) (c : Fin n) (hc : w = .inl c) :
    (s.table.users (some c)).pc = .idle := by
  subst hc
  have hok := h.wakes c
  unfold WakeOk at hok
  split at hok
  next heq => exact absurd heq hw
  next i heq => exact absurd heq (hpub i)
  next => exact hok

theorem Inv.wakerStep (h : s.Inv) {e : MergeEvent n} (hs : s.wakerStep e = some s') : s'.Inv := by
  unfold MergeState.wakerStep at hs
  cases e with
  | cursor c a =>
    simp only [Option.ite_none_right_eq_some, Option.map_eq_some_iff] at hs
    obtain ⟨hidle, table, htable, rfl⟩ := hs
    exact h.cursor hidle htable
  | resume c ok =>
    simp only at hs
    split at hs
    next hthrows =>
      obtain ⟨table, htable, rfl⟩ := Option.map_eq_some_iff.mp hs
      exact h.throws hthrows htable
    next =>
      obtain ⟨table, htable, rfl⟩ := Option.map_eq_some_iff.mp hs
      exact h.resume htable
  | signal w =>
    have h : MergeState.Inv { s with signal := s.signal + 1 } :=
      ⟨h.bounded, h.owned, h.wakes, h.covered⟩
    simp only at hs
    split at hs
    next hfree =>
      have hpc : ∀ c, w = .inl c → (s.table.users (some c)).pc = .idle := by
        intro c hc
        rw [hc] at hfree
        exact hfree
      split at hs
      next hw =>
        obtain rfl := Option.some.inj hs
        apply h.setWake
        . simp only [hw]
          rfl
        . intro c hc
          simp [WakeOk, MergeState.setWake, hc, hpc c hc]
        . intro i hp
          simp [Pending, hw] at hp
      next i hw =>
        obtain rfl := Option.some.inj hs
        apply h.setWake
        . simp only [hw]
          rfl
        . intro c hc
          simp [WakeOk, MergeState.setWake, hc, hpc c hc]
        . intro j hp
          simp only [Pending, hw] at hp
          simp [Pending, MergeState.setWake, hp]
      next => simp at hs
    next => simp at hs
  | force k =>
    have h : MergeState.Inv { s with force := true } := ⟨h.bounded, h.owned, h.wakes, h.covered⟩
    simp only at hs
    split at hs
    next hw =>
      obtain rfl := Option.some.inj hs
      apply h.setWake
      . simp only [hw]
        rfl
      . intro c hc
        simp at hc
      . intro i hp
        simp [Pending, hw] at hp
    next => simp at hs
  | request k =>
    have h : MergeState.Inv { s with signal := s.signal + 1 } :=
      ⟨h.bounded, h.owned, h.wakes, h.covered⟩
    have hreq : (s.wakes (.inr k)).owns = false → (∀ i, ¬ s.Pending i (.inr k)) →
        (MergeState.setWake { s with signal := s.signal + 1 } (.inr k)
          (.signalled none (some (s.signal + 1)))).Inv := by
      intro howns hnot
      apply h.setWake
      . exact howns.symm
      . intro c hc
        simp at hc
      . intro i hp
        exact absurd hp (hnot i)
    simp only at hs
    split at hs
    next hw =>
      obtain rfl := Option.some.inj hs
      exact hreq (by rw [hw]; rfl) (by simp [Pending, hw])
    next hw =>
      obtain rfl := Option.some.inj hs
      exact hreq (by rw [hw]; rfl) (by simp [Pending, hw])
    next => simp at hs
  | acquire w =>
    simp only at hs
    split at hs
    next slot req hw =>
      have hpc := h.idle (w := w) (by simp [hw]) (by simp [hw])
      split at hs
      next hactive =>
        obtain rfl := Option.some.inj hs
        unfold MergeState.wakeDone
        have howns : (s.wakes w).owns = false := by
          rw [hw]
          rfl
        cases req with
        | none => exact h.leaves hactive howns rfl (by simp) hpc
        | some req => exact h.leaves hactive howns rfl (by simp) hpc
      next hactive =>
        obtain rfl := Option.some.inj hs
        obtain ⟨owner, howner⟩ := h.owned
        obtain rfl := howner.eq_none (by simpa using hactive)
        exact Inv.of_active h.bounded ⟨_, howner.wakeWins rfl⟩
          (h.wakesOk rfl rfl hpc (by simp)) rfl
    next => simp at hs
  | submit w t =>
    simp only at hs
    split at hs
    next slot req hw ht =>
      obtain rfl := Option.some.inj hs
      have hpc := h.idle (w := w) (by simp [hw]) (by simp [hw])
      have h : MergeState.Inv { s with inflight := s.inflight + 1 } :=
        ⟨h.bounded, h.owned, h.wakes, h.covered⟩
      have howns : (s.wakes w).owns = true := by
        rw [hw]
        rfl
      unfold MergeState.wakeDone
      cases req with
      | none => exact h.submits howns rfl (by simp) hpc
      | some req => exact h.submits howns rfl (by simp) hpc
    next => simp at hs
  | release k =>
    simp only at hs
    repeat' split at hs
    next hw hreq =>
      obtain rfl := Option.some.inj hs
      apply h.setWake
      . rw [hw]
        rfl
      . intro c hc
        simp at hc
      . intro i hp
        simp [Pending, hw] at hp
    all_goals simp at hs
  | _ => simp at hs

/-- A step of the owner of the flag. -/
theorem Inv.drainStep (h : s.Inv) {e : MergeEvent n} (hs : s.drainStep e = some s') : s'.Inv := by
  obtain ⟨t, pc, hd⟩ := drains hs
  obtain ⟨owner, howner⟩ := h.owned
  obtain ⟨howner, hactive⟩ := hd.ownedBy howner
  apply Inv.of_active _ ⟨owner, howner⟩ _ hactive
  . rcases hd.table with htable | ⟨i, htable⟩ | ⟨ok, htable⟩
    . rw [htable]
      exact h.bounded
    . exact h.bounded.step htable
    . exact h.bounded.step htable
  . intro c
    apply (h.wakes c).congr
    . rcases hd.table with htable | ⟨i, htable⟩ | ⟨ok, htable⟩
      . rw [htable]
      . exact SlotTable.users_merge htable
      . exact SlotTable.users_resume (by simp) htable
    . rw [hd.wakes]

theorem Inv.retireStep (h : s.Inv) {e : MergeEvent n} (hs : s.retireStep e = some s') : s'.Inv := by
  obtain ⟨owner, howner⟩ := h.owned
  obtain ⟨owner, howner⟩ := howner.retireStep hs
  obtain ⟨t, pc, hr⟩ := retires hs
  have hwakes : ∀ c, s'.WakeOk c :=
    fun c => (h.wakes c).congr (by rw [hr.table]) (by rw [hr.wakes])
  have hbounded : s'.table.Bounded := by
    rw [hr.table]
    exact h.bounded
  refine ⟨hbounded, ⟨owner, howner⟩, hwakes, ?_⟩
  intro i hi
  rw [hr.table] at hi
  rcases h.covered i hi with ⟨r, hscan⟩ | ⟨w, hw, hrec⟩
  . by_cases hrt : r = t
    . subst hrt
      rcases hr.scans i (SlotTable.lt_of_merging h.bounded hi) hscan with hpc | hread | hlost
      . left
        exact ⟨r, by rw [hr.tasks, Function.update_self]; exact hpc⟩
      . obtain ⟨_, _, _, _, hstate⟩ := hread
        exact absurd hi hstate
      . exact howner.covered hwakes hlost.2.2 i
    . left
      exact ⟨r, by rw [hr.tasks, Function.update_of_ne hrt]; exact hscan⟩
  . right
    refine ⟨w, ?_, ?_⟩
    . unfold Pending at *
      rw [hr.wakes]
      exact hw
    . cases w with
      | inl c =>
        unfold Recycles at *
        rw [hr.table]
        exact hrec
      | inr k => simp [Recycles]

theorem Inv.step (h : s.Inv) {e : MergeEvent n} (hs : s.step e = some s') : s'.Inv := by
  unfold MergeState.step at hs
  split at hs
  all_goals
    first
    | exact h.wakerStep hs
    | exact h.drainStep hs
    | exact h.retireStep hs

theorem Inv.run (h : s.Inv) {es : List (MergeEvent n)} (hrun : s.run es = some s') : s'.Inv := by
  induction es generalizing s with
  | nil =>
    obtain rfl := Option.some.inj hrun
    exact h
  | cons e es ih =>
    simp only [MergeState.run, Option.bind_eq_some_iff] at hrun
    obtain ⟨t, ht, hrun⟩ := hrun
    exact ih (h.step ht) hrun

end Step

section Scans

variable {s s' : MergeState n}

/-- The task looks at the state of the slot. -/
def Reads (s : MergeState n) (t i : Nat) : MergeEvent n → Prop
  | .collect r _ => r = t ∧ ∃ sig force count seen mergeSlots,
    s.tasks t = .collect sig force i count seen mergeSlots ∧ i < count
  | .scan r => r = t ∧ ∃ count, s.tasks t = .scan i count ∧ i < count
  | _ => False

/--
The task is queued or runs, and before it retires it looks at the slot again, unless it finds that
`_merge_task_active` belongs to another one.
-/
def StillScans (s : MergeState n) (t i : Nat) : Prop :=
  (s.tasks t ≠ .absent ∧ s.tasks t ≠ .retired) ∧
    ∀ es s', s.run es = some s' → s'.tasks t = .retired →
      ∃ as u e bs, es = as ++ e :: bs ∧ s.run as = some u ∧
        (u.Reads t i e ∨ e = .rewin t ∧ u.active = true)

theorem willScan_step {e : MergeEvent n} {t i : Nat} (hs : s.step e = some s')
    (hi : i < s.table.count) (ht : (s.tasks t).willScan i = true) :
    ((s'.tasks t).willScan i = true ∧ i < s'.table.count) ∨ s.Reads t i e ∨
      e = .rewin t ∧ s.active = true := by
  rcases step_cases hs with hw | ⟨r, pc, hd⟩ | ⟨r, pc, hr⟩
  . left
    refine ⟨?_, Nat.lt_of_lt_of_le hi hw.count⟩
    rcases hw.tasks t with htasks | htasks
    . rw [htasks]
      exact ht
    . rw [htasks]
      rfl
  . left
    constructor
    . rw [hd.tasks, Function.update_apply]
      split
      . exact TaskPc.willScan_of_owns hd.stays i
      . exact ht
    . rcases hd.table with htable | ⟨j, htable⟩ | ⟨ok, htable⟩
      . rw [htable]
        exact hi
      . exact Nat.lt_of_lt_of_le hi (SlotTable.count_step htable)
      . exact Nat.lt_of_lt_of_le hi (SlotTable.count_step htable)
  . by_cases hrt : t = r
    . subst hrt
      rcases hr.scans i hi ht with hpc | ⟨count, rfl, hread, hlt, -⟩ | ⟨he, hactive, -⟩
      . left
        rw [hr.tasks, Function.update_self, hr.table]
        exact ⟨hpc, hi⟩
      . right
        left
        exact ⟨rfl, count, hread, hlt⟩
      . right
        right
        exact ⟨he, hactive⟩
    . left
      rw [hr.tasks, Function.update_of_ne hrt, hr.table]
      exact ⟨ht, hi⟩

theorem stillScans {t i : Nat} (hi : i < s.table.count) (ht : (s.tasks t).willScan i = true) :
    s.StillScans t i := by
  constructor
  . constructor
    . intro h
      simp [h, TaskPc.willScan] at ht
    . intro h
      simp [h, TaskPc.willScan] at ht
  . intro es s' hrun hretired
    induction es generalizing s with
    | nil =>
      obtain rfl := Option.some.inj hrun
      simp [hretired, TaskPc.willScan] at ht
    | cons e es ih =>
      simp only [MergeState.run, Option.bind_eq_some_iff] at hrun
      obtain ⟨u, hu, hrun⟩ := hrun
      rcases willScan_step hu hi ht with ⟨ht, hi⟩ | hlast
      . obtain ⟨as, v, e', bs, rfl, has, hlast⟩ := ih hi ht hrun
        exact ⟨e :: as, v, e', bs, rfl, by simp [MergeState.run, hu, has], hlast⟩
      . exact ⟨[], s, e, es, rfl, rfl, hlast⟩

end Scans

section History

/-- How often `_merge_signal` has been bumped. -/
def bumps (es : List (MergeEvent n)) : Nat :=
  es.countP MergeEvent.bumps

/-- A pass that has started after the request is over before the request is released. -/
def ReleasedAfterPass (es : List (MergeEvent n)) (k : Nat) : Prop :=
  ∃ as bs cs ds fs t, .pass t ∉ cs ∧ es = as ++ .request k ::
    (bs ++ .pass t :: (cs ++ .publish t :: (ds ++ .release k :: fs)))

/-- What the events so far say about a state. -/
structure History (es : List (MergeEvent n)) (s : MergeState n) : Prop where
  signal : s.signal = bumps es
  sig : ∀ t sig, (s.tasks t).sig = some sig → sig ≤ s.signal
  request : ∀ k r, (s.wakes (.inr k)).req = some r →
    ∃ as bs, es = as ++ .request k :: bs ∧ r = bumps as + 1
  pass : ∀ t sig, (s.tasks t).pass = some sig →
    ∃ as bs, es = as ++ .pass t :: bs ∧ .pass t ∉ bs ∧ sig ≤ bumps as
  done : s.done = 0 ∨ ∃ as bs cs t, es = as ++ .pass t :: (bs ++ .publish t :: cs) ∧
    .pass t ∉ bs ∧ s.done ≤ bumps as
  released : ∀ k, s.wakes (.inr k) = .released → ReleasedAfterPass es k

theorem bumps_concat (es : List (MergeEvent n)) (e : MergeEvent n) :
    bumps (es ++ [e]) = bumps es + e.bumps.toNat := by
  unfold bumps
  rw [List.countP_append]
  cases he : e.bumps <;> simp [he]

theorem ReleasedAfterPass.concat {es : List (MergeEvent n)} {k : Nat} (h : ReleasedAfterPass es k)
    (e : MergeEvent n) : ReleasedAfterPass (es ++ [e]) k := by
  obtain ⟨as, bs, cs, ds, fs, t, hcs, rfl⟩ := h
  exact ⟨as, bs, cs, ds, fs ++ [e], t, hcs, by simp⟩

theorem history_create : History [] (create n) := by
  constructor <;> simp [create, bumps, TaskPc.sig, TaskPc.pass, WakePc.req]

variable {s s' : MergeState n} {es : List (MergeEvent n)} {e : MergeEvent n}

/-- The request comes before the pass that has seen its bump. -/
theorem History.releases (h : History es s) {k req : Nat}
    (hreq : (s.wakes (.inr k)).req = some req) (hdone : req ≤ s.done) :
    ReleasedAfterPass (es ++ [.release k]) k := by
  obtain ⟨as, bs, hes, hr⟩ := h.request k req hreq
  rcases h.done with hzero | ⟨as', bs', cs, t, hes', hbs', hle⟩
  . omega
  . rw [hes] at hes'
    rcases List.append_eq_append_iff.mp hes' with ⟨ds, has, hbs⟩ | ⟨ds, has, hbs⟩
    . cases ds with
      | nil => simp at hbs
      | cons d ds =>
        simp only [List.cons_append, List.cons.injEq] at hbs
        obtain ⟨rfl, rfl⟩ := hbs
        exact ⟨as, ds, bs', cs, [], t, hbs', by simp [hes]⟩
    . have : bumps as' ≤ bumps as := by
        rw [has, bumps, bumps, List.countP_append]
        omega
      omega

theorem History.wakens (h : History es s) (hw : s.Wakens s' e) : History (es ++ [e]) s' where
  signal := by rw [hw.signal, h.signal, bumps_concat]
  sig := by
    intro t sig hsig
    rw [hw.signal]
    rcases hw.tasks t with htasks | htasks
    . rw [htasks] at hsig
      have := h.sig t sig hsig
      omega
    . rw [htasks] at hsig
      simp [TaskPc.sig] at hsig
  request := by
    intro k r hr
    rcases hw.req k r hr with hold | ⟨rfl, rfl⟩
    . obtain ⟨as, bs, hes, hr⟩ := h.request k r hold
      exact ⟨as, bs ++ [e], by simp [hes], hr⟩
    . exact ⟨es, [], rfl, by rw [h.signal]⟩
  pass := by
    intro t sig hsig
    rcases hw.tasks t with htasks | htasks
    . rw [htasks] at hsig
      obtain ⟨as, bs, hes, hbs, hle⟩ := h.pass t sig hsig
      exact ⟨as, bs ++ [e], by simp [hes], by simp [hbs, (hw.notPass t).symm], hle⟩
    . rw [htasks] at hsig
      simp [TaskPc.pass] at hsig
  done := by
    rw [hw.done]
    rcases h.done with hzero | ⟨as, bs, cs, t, hes, hbs, hle⟩
    . exact .inl hzero
    . exact .inr ⟨as, bs, cs ++ [e], t, by simp [hes], hbs, hle⟩
  released := by
    intro k hk
    rcases hw.released k hk with hold | ⟨rfl, req, hreq, hdone⟩
    . exact (h.released k hold).concat e
    . exact h.releases hreq hdone

theorem History.drains (h : History es s) {t : Nat} {pc : TaskPc} (hd : s.Drains s' e t pc) :
    History (es ++ [e]) s' where
  signal := by simp [hd.signal, h.signal, bumps_concat, hd.notBumps]
  sig := by
    intro r sig hsig
    rw [hd.signal]
    rw [hd.tasks, Function.update_apply] at hsig
    split at hsig
    . rcases hd.sig with hpc | hpc
      . exact h.sig t sig (hpc ▸ hsig)
      . rw [hpc, Option.some.injEq] at hsig
        omega
    . exact h.sig r sig hsig
  request := by
    intro k r hr
    rw [hd.wakes] at hr
    obtain ⟨as, bs, hes, hr⟩ := h.request k r hr
    exact ⟨as, bs ++ [e], by simp [hes], hr⟩
  pass := by
    intro r sig hsig
    have hold : e ≠ .pass r → (s.tasks r).pass = some sig →
        ∃ as bs, es ++ [e] = as ++ .pass r :: bs ∧ .pass r ∉ bs ∧ sig ≤ bumps as := by
      intro he hpass
      obtain ⟨as, bs, hes, hbs, hle⟩ := h.pass r sig hpass
      exact ⟨as, bs ++ [e], by simp [hes], by simp [hbs, he.symm], hle⟩
    rw [hd.tasks, Function.update_apply] at hsig
    split at hsig
    next hrt =>
      subst hrt
      by_cases he : e = .pass r
      . rw [(hd.passes r he).2] at hsig
        refine ⟨es, [], by rw [he], by simp, ?_⟩
        rw [← h.signal]
        exact h.sig r sig hsig
      . rcases hd.pass he with hpc | hpc
        . simp [hpc] at hsig
        . exact hold he (hpc ▸ hsig)
    next hrt =>
      apply hold _ hsig
      intro he
      exact hrt (hd.passes r he).1
  done := by
    have hold : s.done = 0 ∨ ∃ as bs cs t, es ++ [e] = as ++ .pass t :: (bs ++ .publish t :: cs) ∧
        .pass t ∉ bs ∧ s.done ≤ bumps as := by
      rcases h.done with hzero | ⟨as, bs, cs, t, hes, hbs, hle⟩
      . exact .inl hzero
      . exact .inr ⟨as, bs, cs ++ [e], t, by simp [hes], hbs, hle⟩
    rcases hd.done with hsame | ⟨sig, rfl, hpass, hmax⟩
    . rw [hsame]
      exact hold
    . rcases Nat.le_total sig s.done with hle | hle
      . rw [hmax, Nat.max_eq_left hle]
        exact hold
      . rw [hmax, Nat.max_eq_right hle]
        obtain ⟨as, bs, hes, hbs, hle⟩ := h.pass t sig hpass
        exact .inr ⟨as, bs, [], t, by simp [hes], hbs, hle⟩
  released := by
    intro k hk
    rw [hd.wakes] at hk
    exact (h.released k hk).concat e

theorem History.retires (h : History es s) {t : Nat} {pc : TaskPc} (hr : s.Retires s' e t pc) :
    History (es ++ [e]) s' where
  signal := by simp [hr.signal, h.signal, bumps_concat, hr.notBumps]
  sig := by
    intro r sig hsig
    rw [hr.signal]
    rw [hr.tasks, Function.update_apply] at hsig
    split at hsig
    . rcases hr.sig with hpc | hpc
      . simp [hpc] at hsig
      . exact h.sig t sig (hpc ▸ hsig)
    . exact h.sig r sig hsig
  request := by
    intro k r hreq
    rw [hr.wakes] at hreq
    obtain ⟨as, bs, hes, hreq⟩ := h.request k r hreq
    exact ⟨as, bs ++ [e], by simp [hes], hreq⟩
  pass := by
    intro r sig hsig
    have hpass : (s.tasks r).pass = some sig := by
      rw [hr.tasks, Function.update_apply] at hsig
      split at hsig
      next hrt =>
        rcases hr.pass with hpc | hpc
        . simp [hpc] at hsig
        . rw [hrt]
          exact hpc ▸ hsig
      next => exact hsig
    obtain ⟨as, bs, hes, hbs, hle⟩ := h.pass r sig hpass
    exact ⟨as, bs ++ [e], by simp [hes], by simp [hbs, (hr.notPass r).symm], hle⟩
  done := by
    rw [hr.done]
    rcases h.done with hzero | ⟨as, bs, cs, t, hes, hbs, hle⟩
    . exact .inl hzero
    . exact .inr ⟨as, bs, cs ++ [e], t, by simp [hes], hbs, hle⟩
  released := by
    intro k hk
    rw [hr.wakes] at hk
    exact (h.released k hk).concat e

theorem History.step (h : History es s) (hs : s.step e = some s') : History (es ++ [e]) s' := by
  rcases step_cases hs with hw | ⟨t, pc, hd⟩ | ⟨t, pc, hr⟩
  . exact h.wakens hw
  . exact h.drains hd
  . exact h.retires hr

theorem History.run (h : History es s) {fs : List (MergeEvent n)} (hrun : s.run fs = some s') :
    History (es ++ fs) s' := by
  induction fs generalizing s es with
  | nil =>
    obtain rfl := Option.some.inj hrun
    simpa using h
  | cons e fs ih =>
    simp only [MergeState.run, Option.bind_eq_some_iff] at hrun
    obtain ⟨t, ht, hrun⟩ := hrun
    have := ih (h.step ht) hrun
    simpa using this

end History

/-- At most one task, or caller which is about to submit one, has `_merge_task_active`. -/
def OneOwner (s : MergeState n) : Prop :=
  (∀ o o', s.Owns o → s.Owns o' → o = o') ∧ (s.active = true ↔ ∃ o, s.Owns o)

theorem OwnedBy.oneOwner {s : MergeState n} {owner : Option (Waker n ⊕ Nat)}
    (h : s.OwnedBy owner) : s.OneOwner := by
  constructor
  . intro o o' ho ho'
    have := (h.eq_some ho).symm.trans (h.eq_some ho')
    exact Option.some.inj this
  . rw [h.1, Option.isSome_iff_exists]
    constructor
    . rintro ⟨o, ho⟩
      exact ⟨o, (h.2 o).mpr ho⟩
    . rintro ⟨o, ho⟩
      exact ⟨o, (h.2 o).mp ho⟩

end MergeState
end Leaves
