import Mathlib.Algebra.Order.BigOperators.Group.Finset
import Mathlib.Data.Fintype.Option
import Leaves.Multi.Slots

/-!
The invariant of the slots: who owns a slot, how often it is pinned, and what the threads rely on.
-/

namespace Leaves

open Function

namespace Pc

/-- The slot that is pinned for the next step. -/
def pin : Pc → Option Nat
  | source i | unpin i | mergePinned i | applying i | applied i | failed i | failedUnpin i => some i
  | _ => none

/-- The slot whose transaction is pinned for the next step. -/
def txnPin : Pc → Option Nat
  | applying i => some i
  | _ => none

/-- The slot whose last pin has been given back. -/
def last : Pc → Option Nat
  | unpinned i | recycle i | emptied i => some i
  | _ => none

/-- The slot that is being recycled. -/
def recycled : Pc → Option Nat
  | recycle i | emptied i => some i
  | _ => none

/-- The slot that is being merged. -/
def merged : Pc → Option Nat
  | taken i | mergePinned i | applying i | applied i | failed i => some i
  | _ => none

/-- The step is one of the merge task. -/
def mergeTask : Pc → Bool
  | taken _ | mergePinned _ | applying _ | applied _ | failed _ | failedUnpin _ => true
  | _ => false

/-- The slot of a step. -/
def slot : Pc → Option Nat
  | claim i | checked i | source i | unpin i | unpinned i | recycle i | emptied i | taken i
  | mergePinned i | applying i | applied i | failed i | failedUnpin i => some i
  | _ => none

/-- The step is not about the write source. -/
def other : Pc → Bool
  | claim _ | reinit | opening _ | sawMerged | reclaim | reset | park | detach => false
  | _ => true

/-- A step that neither merges nor recycles. -/
structure Quiet (pc : Pc) : Prop where
  other : pc.other = true
  last : pc.last = none
  recycled : pc.recycled = none
  merged : pc.merged = none
  mergeTask : pc.mergeTask = false

/-- The step is about no slot, or about another one. -/
structure Away (pc : Pc) (i : Nat) : Prop where
  pin : pc.pin ≠ some i
  txnPin : pc.txnPin ≠ some i
  last : pc.last ≠ some i
  recycled : pc.recycled ≠ some i
  merged : pc.merged ≠ some i
  claim : pc ≠ .claim i
  applied : pc ≠ .applied i
  failedUnpin : pc ≠ .failedUnpin i

theorem away {pc : Pc} {i : Nat} (h : pc.slot ≠ some i) : pc.Away i := by
  constructor
  all_goals
    cases pc <;> simp_all [slot, pin, txnPin, last, recycled, merged]

theorem pin_of_txnPin {pc : Pc} {i : Nat} (h : pc.txnPin = some i) : pc.pin = some i := by
  cases pc <;> simp_all [txnPin, pin]

theorem last_of_recycled {pc : Pc} {i : Nat} (h : pc.recycled = some i) : pc.last = some i := by
  cases pc <;> simp_all [recycled, last]

end Pc

namespace SlotUser

def pins (u : SlotUser) (i : Nat) : Nat :=
  (if u.writeSource = some i then 1 else 0) + u.sources.count i + (if u.pc.pin = some i then 1 else 0)

def txnPins (u : SlotUser) (i : Nat) : Nat :=
  (if u.writeSource = some i ∧ u.writeCursor then 1 else 0) + u.sources.count i +
    (if u.pc.txnPin = some i then 1 else 0)

/-- The cursor has claimed the slot, and still has it. -/
def Owns (u : SlotUser) (i : Nat) : Prop := u.writeSource = some i ∨ u.pc = .claim i

def Wf (u : SlotUser) : Prop :=
  match u.pc with
  | .claim _ => u.writeSource = none ∧ u.writeCursor = false ∧ u.inTransaction = false
  | .reinit | .reset =>
    u.writeSource.isSome = true ∧ u.writeCursor = false ∧ u.inTransaction = false
  | .opening _ | .sawMerged | .reclaim | .park | .detach =>
    u.writeSource.isSome = true ∧ u.writeCursor = true ∧ u.inTransaction = false
  | _ => u.writeCursor = u.writeSource.isSome ∧ (u.inTransaction = true → u.writeSource.isSome = true)

/-- The states the write source may be in. -/
def Expects (u : SlotUser) (state : SlotState) : Prop :=
  match u.pc with
  | .reinit | .reclaim | .reset | .opening true => state = .firstWriting
  | .opening false => state = .writing
  | .sawMerged => state = .merged
  | .park => state = .merging ∨ state = .merged
  | .detach => state = .attached ∨ state = .merging ∨ state = .merged
  | _ =>
    if u.inTransaction then state = .firstWriting ∨ state = .writing
    else state = .attached ∨ state = .merging ∨ state = .merged

/-- What a thread relies on at a slot. -/
structure Requires (u : SlotUser) (i : Nat) (s : Slot) : Prop where
  source : u.writeSource = some i → u.Expects s.state
  claim : u.pc = .claim i → s.state = .firstWriting
  recycled : u.pc.recycled = some i → s.state = .merged ∧ s.refs = 0
  merged : u.pc.merged = some i → s.state = .merging
  applied : u.pc = .applied i → s.inMain = true
  failedUnpin : u.pc = .failedUnpin i → s.state ≠ .merged

/-- A thread is as before at all other slots. -/
structure Elsewhere (u v : SlotUser) (i : Nat) : Prop where
  pins : ∀ j, j ≠ i → v.pins j = u.pins j
  txnPins : ∀ j, j ≠ i → v.txnPins j = u.txnPins j
  owns : ∀ j, j ≠ i → (v.Owns j ↔ u.Owns j)
  last : ∀ j, j ≠ i → (v.pc.last = some j ↔ u.pc.last = some j)
  recycled : ∀ j, j ≠ i → (v.pc.recycled = some j ↔ u.pc.recycled = some j)
  requires : ∀ j, j ≠ i → ∀ s, u.Requires j s → v.Requires j s

theorem txnPins_le (u : SlotUser) (i : Nat) : u.txnPins i ≤ u.pins i := by
  unfold txnPins pins
  have hpin : u.pc.txnPin = some i → u.pc.pin = some i := Pc.pin_of_txnPin
  have hsource : (if u.writeSource = some i ∧ u.writeCursor then 1 else 0) ≤
      if u.writeSource = some i then 1 else 0 := by
    split <;> split <;> simp_all
  have hstep : (if u.pc.txnPin = some i then 1 else 0) ≤ if u.pc.pin = some i then 1 else 0 := by
    split <;> split <;> simp_all
  omega

theorem expects_of_other {u : SlotUser} (h : u.pc.other = true) (state : SlotState) :
    u.Expects state ↔ if u.inTransaction then state = .firstWriting ∨ state = .writing
      else state = .attached ∨ state = .merging ∨ state = .merged := by
  unfold Expects
  cases hpc : u.pc <;> simp_all [Pc.other]

/-- The states of a slot between two transactions and behind a merge. -/
theorem Expects.move {u : SlotUser} {state state' : SlotState} (hu : u.Expects state)
    (h : state = .attached ∨ state = .merging)
    (h' : state' = .attached ∨ state' = .merging ∨ state' = .merged)
    (hpark : u.pc = .park → state' ≠ .attached) : u.Expects state' := by
  unfold Expects at hu ⊢
  cases hp : u.pc with
  | opening first => cases first <;> (simp only [hp] at hu; grind)
  | _ =>
    simp only [hp] at hu ⊢
    grind

theorem not_expects_empty (u : SlotUser) : ¬ u.Expects .empty := by
  unfold Expects
  split <;> simp

theorem wf_of_other {u : SlotUser} (h : u.pc.other = true) :
    u.Wf ↔ u.writeCursor = u.writeSource.isSome ∧
      (u.inTransaction = true → u.writeSource.isSome = true) := by
  unfold Wf
  cases hpc : u.pc <;> simp_all [Pc.other]

/-- The steps of a thread that are not about its write source. -/
theorem elsewhere_other {u v : SlotUser} {i : Nat} (hu : u.pc.other = true)
    (hv : v.pc.other = true) (hws : v.writeSource = u.writeSource)
    (hwc : v.writeCursor = u.writeCursor) (ht : v.inTransaction = u.inTransaction)
    (hup : ∀ j, j ≠ i → u.pc.slot ≠ some j) (hvp : ∀ j, j ≠ i → v.pc.slot ≠ some j)
    (hs : ∀ j, j ≠ i → v.sources.count j = u.sources.count j) : u.Elsewhere v i := by
  constructor
  all_goals
    intro j hj
    have hau := Pc.away (hup j hj)
    have hav := Pc.away (hvp j hj)
  . simp [pins, hws, hs j hj, hau.pin, hav.pin]
  . simp [txnPins, hws, hwc, hs j hj, hau.txnPin, hav.txnPin]
  . simp [Owns, hws, hau.claim, hav.claim]
  . simp [hau.last, hav.last]
  . simp [hau.recycled, hav.recycled]
  . intro s h
    refine ⟨?_, by simp [hav.claim], by simp [hav.recycled], by simp [hav.merged],
      by simp [hav.applied], by simp [hav.failedUnpin]⟩
    rw [hws, expects_of_other hv, ht, ← expects_of_other hu]
    exact h.source

/-- The steps of a thread with no other write source than the slot. -/
theorem elsewhere_write {u v : SlotUser} {i : Nat} (hu : ∀ j, j ≠ i → u.writeSource ≠ some j)
    (hv : ∀ j, j ≠ i → v.writeSource ≠ some j)
    (hup : ∀ j, j ≠ i → u.pc.slot ≠ some j) (hvp : ∀ j, j ≠ i → v.pc.slot ≠ some j)
    (hs : v.sources = u.sources) : u.Elsewhere v i := by
  constructor
  all_goals
    intro j hj
    have hau := Pc.away (hup j hj)
    have hav := Pc.away (hvp j hj)
  . simp [pins, hu j hj, hv j hj, hs, hau.pin, hav.pin]
  . simp [txnPins, hu j hj, hv j hj, hs, hau.txnPin, hav.txnPin]
  . simp [Owns, hu j hj, hv j hj, hau.claim, hav.claim]
  . simp [hau.last, hav.last]
  . simp [hau.recycled, hav.recycled]
  . intro s _
    exact ⟨by simp [hv j hj], by simp [hav.claim], by simp [hav.recycled], by simp [hav.merged],
      by simp [hav.applied], by simp [hav.failedUnpin]⟩

end SlotUser

namespace SlotTable

variable {n : Nat}

structure Inv (s : SlotTable n) : Prop where
  refs : ∀ i, (s.slots i).refs = ∑ c, (s.users c).pins i
  txnRefs : ∀ i, (s.slots i).txnRefs = ∑ c, (s.users c).txnPins i
  wf : ∀ c, (s.users c).Wf
  requires : ∀ c i, (s.users c).Requires i (s.slots i)
  beyond : ∀ i, s.count ≤ i → s.slots i = .fresh .empty 0
  unique : ∀ c d i, (s.users c).Owns i → (s.users d).Owns i → c = d
  owned : ∀ i, (s.slots i).state.owned = true → ∃ c, (s.users c).Owns i
  inMain : ∀ i, (s.slots i).state.readable = false → (s.slots i).inMain = true
  merges : ∀ i, (s.slots i).merges =
    (s.slots i).recycles + if (s.slots i).state = .merged then 1 else 0
  last : ∀ i, (s.slots i).state = .merged → (s.slots i).refs = 0 →
    ∃ c, (s.users c).pc.last = some i
  recycler : ∀ c d i, (s.users c).pc.recycled = some i → (s.users d).pc.last = some i → c = d
  merger : ∀ c, (s.users c).pc.mergeTask = true → c = none
  thrown : s.thrown = false

theorem sum_update {α : Type} [Fintype α] [DecidableEq α] {β : Type} (f : β → Nat) (g : α → β)
    (c : α) (b : β) : ∑ d, f (update g c b d) + f (g c) = ∑ d, f (g d) + f b := by
  rw [← Finset.add_sum_erase _ _ (Finset.mem_univ c), ← Finset.add_sum_erase (a := c) _ (fun d => f (g d)) (Finset.mem_univ c)]
  have : ∑ d ∈ Finset.univ.erase c, f (update g c b d) = ∑ d ∈ Finset.univ.erase c, f (g d) := by
    refine Finset.sum_congr rfl ?_
    intro d hd
    rw [update_of_ne (Finset.ne_of_mem_erase hd)]
  rw [this, update_self]
  omega

/-- What a step of a thread at a slot has to keep. -/
structure Moves (s : SlotTable n) (c : Option (Fin n)) (u : SlotUser) (i : Nat) (t : Slot) :
    Prop where
  lt : i < s.count ∨ t = s.slots i
  elsewhere : (s.users c).Elsewhere u i
  wf : u.Wf
  refs : t.refs + (s.users c).pins i = (s.slots i).refs + u.pins i
  txnRefs : t.txnRefs + (s.users c).txnPins i = (s.slots i).txnRefs + u.txnPins i
  requires : u.Requires i t
  others : ∀ d, d ≠ c → (s.users d).Requires i t
  unique : u.Owns i → ∀ d, d ≠ c → ¬ (s.users d).Owns i
  owned : t.state.owned = true → u.Owns i ∨ ∃ d, d ≠ c ∧ (s.users d).Owns i
  inMain : t.state.readable = false → t.inMain = true
  merges : t.merges = t.recycles + if t.state = .merged then 1 else 0
  last : t.state = .merged → t.refs = 0 →
    u.pc.last = some i ∨ ∃ d, d ≠ c ∧ (s.users d).pc.last = some i
  recycler : u.pc.recycled = some i → ∀ d, d ≠ c → (s.users d).pc.last ≠ some i
  recycled : u.pc.last = some i → ∀ d, d ≠ c → (s.users d).pc.recycled ≠ some i
  merger : u.pc.mergeTask = true → c = none

/-- A property of the threads holds for one of them, with the thread that moves apart. -/
theorem exists_update_iff {α β : Type} [DecidableEq α] (p : β → Prop) {f : α → β} {c : α} {b : β} :
    (∃ d, p (update f c b d)) ↔ p b ∨ ∃ d, d ≠ c ∧ p (f d) := by
  constructor
  . rintro ⟨d, hd⟩
    by_cases hc : d = c
    . rw [hc, update_self] at hd
      exact Or.inl hd
    . rw [update_of_ne hc] at hd
      exact Or.inr ⟨d, hc, hd⟩
  . rintro (hb | ⟨d, hc, hd⟩)
    . exact ⟨c, by rwa [update_self]⟩
    . exact ⟨d, by rwa [update_of_ne hc]⟩

theorem Inv.moves {s : SlotTable n} (h : s.Inv) {c : Option (Fin n)} {u : SlotUser} {i : Nat}
    {t : Slot} (hm : s.Moves c u i t) {s' : SlotTable n} (hcount : s'.count = s.count)
    (hslots : s'.slots = update s.slots i t) (husers : s'.users = update s.users c u)
    (hthrown : s'.thrown = s.thrown) : s'.Inv := by
  have hkeep : ∀ p : SlotUser → Prop, (p u ↔ p (s.users c)) →
      ((∃ d, p (update s.users c u d)) ↔ ∃ d, p (s.users d)) := by
    intro p hp
    rw [exists_update_iff, hp, ← exists_update_iff p, update_eq_self]
  refine ⟨?_, ?_, ?_, ?_, ?_, ?_, ?_, ?_, ?_, ?_, ?_, ?_, hthrown.trans h.thrown⟩
  all_goals
    first | rw [hslots, husers] | rw [husers] | rw [hslots]
  . intro j
    have hsum := sum_update (fun u => u.pins j) s.users c u
    rw [← h.refs j] at hsum
    by_cases hj : j = i
    . subst hj
      have := hm.refs
      simp only [update_self]
      omega
    . have := hm.elsewhere.pins j hj
      simp only [ne_eq, hj, not_false_eq_true, update_of_ne]
      omega
  . intro j
    have hsum := sum_update (fun u => u.txnPins j) s.users c u
    rw [← h.txnRefs j] at hsum
    by_cases hj : j = i
    . subst hj
      have := hm.txnRefs
      simp only [update_self]
      omega
    . have := hm.elsewhere.txnPins j hj
      simp only [ne_eq, hj, not_false_eq_true, update_of_ne]
      omega
  . intro d
    by_cases hd : d = c
    . rw [hd, update_self]
      exact hm.wf
    . rw [update_of_ne hd]
      exact h.wf d
  . intro d j
    by_cases hd : d = c <;> by_cases hj : j = i
    . rw [hd, hj, update_self, update_self]
      exact hm.requires
    . rw [hd, update_self, update_of_ne hj]
      exact hm.elsewhere.requires j hj _ (h.requires c j)
    . rw [hj, update_of_ne hd, update_self]
      exact hm.others d hd
    . rw [update_of_ne hd, update_of_ne hj]
      exact h.requires d j
  . intro j hj
    rw [hcount] at hj
    by_cases hji : j = i
    . subst hji
      rw [update_self, hm.lt.resolve_left (by omega)]
      exact h.beyond j hj
    . rw [update_of_ne hji]
      exact h.beyond j hj
  . intro d e j hd he
    by_cases hj : j = i
    . subst hj
      by_cases hdc : d = c <;> by_cases hec : e = c
      . rw [hdc, hec]
      . rw [hdc, update_self] at hd
        rw [update_of_ne hec] at he
        exact absurd he (hm.unique hd e hec)
      . rw [hec, update_self] at he
        rw [update_of_ne hdc] at hd
        exact absurd hd (hm.unique he d hdc)
      . rw [update_of_ne hdc] at hd
        rw [update_of_ne hec] at he
        exact h.unique d e j hd he
    . have hold : ∀ d, (update s.users c u d).Owns j → (s.users d).Owns j := by
        intro d hd
        by_cases hdc : d = c
        . rw [hdc, update_self, hm.elsewhere.owns j hj] at hd
          rwa [hdc]
        . rwa [update_of_ne hdc] at hd
      exact h.unique d e j (hold d hd) (hold e he)
  . intro j hj
    by_cases hji : j = i
    . subst hji
      rw [update_self] at hj
      exact (exists_update_iff (SlotUser.Owns · j)).mpr (hm.owned hj)
    . rw [update_of_ne hji] at hj
      exact (hkeep (SlotUser.Owns · j) (hm.elsewhere.owns j hji)).mpr (h.owned j hj)
  . intro j hj
    by_cases hji : j = i
    . subst hji
      rw [update_self] at hj ⊢
      exact hm.inMain hj
    . rw [update_of_ne hji] at hj ⊢
      exact h.inMain j hj
  . intro j
    by_cases hji : j = i
    . subst hji
      simp only [update_self]
      exact hm.merges
    . simp only [ne_eq, hji, not_false_eq_true, update_of_ne]
      exact h.merges j
  . intro j hj hzero
    by_cases hji : j = i
    . subst hji
      rw [update_self] at hj hzero
      exact (exists_update_iff fun u : SlotUser => u.pc.last = some j).mpr (hm.last hj hzero)
    . rw [update_of_ne hji] at hj hzero
      exact (hkeep (fun u : SlotUser => u.pc.last = some j) (hm.elsewhere.last j hji)).mpr (h.last j hj hzero)
  . intro d e j hd he
    by_cases hj : j = i
    . subst hj
      by_cases hdc : d = c <;> by_cases hec : e = c
      . rw [hdc, hec]
      . rw [hdc, update_self] at hd
        rw [update_of_ne hec] at he
        exact absurd he (hm.recycler hd e hec)
      . rw [hec, update_self] at he
        rw [update_of_ne hdc] at hd
        exact absurd hd (hm.recycled he d hdc)
      . rw [update_of_ne hdc] at hd
        rw [update_of_ne hec] at he
        exact h.recycler d e j hd he
    . refine h.recycler d e j ?_ ?_
      . by_cases hdc : d = c
        . rw [hdc, update_self, hm.elsewhere.recycled j hj] at hd
          rwa [hdc]
        . rwa [update_of_ne hdc] at hd
      . by_cases hec : e = c
        . rw [hec, update_self, hm.elsewhere.last j hj] at he
          rwa [hec]
        . rwa [update_of_ne hec] at he
  . intro d hd
    by_cases hdc : d = c
    . rw [hdc, update_self] at hd
      rw [hdc]
      exact hm.merger hd
    . rw [update_of_ne hdc] at hd
      exact h.merger d hd

end SlotTable
end Leaves
