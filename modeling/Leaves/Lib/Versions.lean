import Mathlib.Algebra.GroupWithZero.Nat
import Mathlib.Data.Option.Basic

/-!
A value with one writer at a time and any number of readers. A reader sees the version it has taken,
whatever is committed afterwards, the writer sees what it has made of it.
-/

namespace Leaves

variable {α β : Type}

structure Versions (α : Type) where
  committed : α
  /-- the reader that writes -/
  owner : Option Nat
  seen : List (Option α)

/-- What a reader does, with a change `β` of the value. -/
inductive VersionEvent (β : Type) where
  | create
  | destroy (c : Nat)
  | update (c : Nat)
  | start (c : Nat)
  | change (c : Nat) (e : β)
  | prepare (c : Nat)
  | commit (c : Nat)
  | rollback (c : Nat)

/-- The reader the event is about, a new one has no number yet. -/
def VersionEvent.reader : VersionEvent β → Option Nat
  | create => none
  | destroy c | update c | start c | change c _ | prepare c | commit c | rollback c => some c

namespace Versions

def init (a : α) : Versions α := ⟨a, none, []⟩

def view (v : Versions α) (c : Nat) : Option α := (v.seen[c]?).join

def setView (v : Versions α) (c : Nat) (o : Option α) : Versions α :=
  { v with seen := v.seen.set c o }

def commit (v : Versions α) (c : Nat) : Versions α :=
  if v.owner = some c then { v with committed := (v.view c).getD v.committed, owner := none } else v

def rollback (v : Versions α) (c : Nat) : Versions α :=
  if v.owner = some c then { v.setView c (some v.committed) with owner := none } else v

/-- A writer has to wait for the other one, whoever does not write may not change the value. -/
def step (apply : α → β → α) (v : Versions α) : VersionEvent β → Option (Versions α)
  | .create => some { v with seen := v.seen ++ [some v.committed] }
  | .destroy c => some ((v.rollback c).setView c none)
  | .update c =>
    (v.view c).map fun _ => if v.owner = some c then v else v.setView c (some v.committed)
  | .start c =>
    (v.view c).bind fun _ =>
      if v.owner = some c then some v
      else if v.owner.isSome then none
      else some { v.setView c (some v.committed) with owner := some c }
  | .change c e =>
    if v.owner = some c then (v.view c).map fun a => v.setView c (some (apply a e)) else none
  | .prepare _ => some v
  | .commit c => some (v.commit c)
  | .rollback c => some (v.rollback c)

def run (apply : α → β → α) (v : Versions α) : List (VersionEvent β) → Option (Versions α)
  | [] => some v
  | e :: es => (v.step apply e).bind fun v => run apply v es

section Views

variable {apply : α → β → α} {v v' : Versions α} {c : Nat}

theorem view_setView (hc : c < v.seen.length) (o : Option α) (c' : Nat) :
    (v.setView c o).view c' = if c' = c then o else v.view c' := by
  rw [view, setView]
  simp only [List.getElem?_set]
  by_cases heq : c = c'
  . rw [if_pos heq, if_pos (heq ▸ hc), if_pos heq.symm]
    rfl
  . rw [if_neg heq, if_neg (Ne.symm heq)]
    rfl

/-- A reader that is not there is not seen, taken away or not. -/
theorem view_setView_none (v : Versions α) (c c' : Nat) :
    (v.setView c none).view c' = if c' = c then none else v.view c' := by
  by_cases hc : c < v.seen.length
  . exact view_setView hc none c'
  . rw [view, view, setView, List.set_eq_of_length_le (Nat.le_of_not_lt hc)]
    split
    next heq => rw [heq, List.getElem?_eq_none (Nat.le_of_not_lt hc), Option.join_none]
    next => rfl

theorem view_append (v : Versions α) (a : α) (c : Nat) :
    ({ v with seen := v.seen ++ [some a] } : Versions α).view c =
      if c = v.seen.length then some a else v.view c := by
  rw [view, view]
  split
  next heq => simp [heq]
  next hne =>
    by_cases hc : c < v.seen.length
    . rw [List.getElem?_append_left hc]
    . rw [List.getElem?_eq_none (by simp; omega), List.getElem?_eq_none (by omega)]

theorem view_setView_of_ne (o : Option α) {c' : Nat} (hne : c' ≠ c) :
    (v.setView c o).view c' = v.view c' := by
  rw [view, setView]
  simp only [List.getElem?_set, if_neg (Ne.symm hne)]
  rfl

theorem lt_of_view {a : α} (h : v.view c = some a) : c < v.seen.length := by
  rw [view, Option.join_eq_some_iff] at h
  exact (List.getElem?_eq_some_iff.mp h).1

theorem view_rollback_of_ne {c' : Nat} (hne : c' ≠ c) : (v.rollback c).view c' = v.view c' := by
  unfold rollback
  split
  . exact view_setView_of_ne _ hne
  . rfl

/-- What others do is not seen. -/
theorem view_step {e : VersionEvent β} {a : α} (hstep : v.step apply e = some v')
    (hne : e.reader ≠ some c) (hview : v.view c = some a) : v'.view c = some a := by
  have hc := lt_of_view hview
  cases e with
  | create =>
    rw [← Option.some.inj hstep, view, List.getElem?_append_left hc]
    exact hview
  | destroy d =>
    have hcd : c ≠ d := fun heq => hne (congrArg some heq.symm)
    rw [← Option.some.inj hstep, view_setView_of_ne _ hcd, view_rollback_of_ne hcd]
    exact hview
  | update d =>
    have hcd : c ≠ d := fun heq => hne (congrArg some heq.symm)
    rw [step, Option.map_eq_some_iff] at hstep
    obtain ⟨b, -, rfl⟩ := hstep
    split
    . exact hview
    . exact (view_setView_of_ne _ hcd).trans hview
  | start d =>
    have hcd : c ≠ d := fun heq => hne (congrArg some heq.symm)
    rw [step, Option.bind_eq_some_iff] at hstep
    obtain ⟨b, -, hstep⟩ := hstep
    split at hstep
    . rw [← Option.some.inj hstep]
      exact hview
    . split at hstep
      . cases hstep
      . rw [← Option.some.inj hstep]
        exact (view_setView_of_ne (v := v) _ hcd).trans hview
  | change d x =>
    have hcd : c ≠ d := fun heq => hne (congrArg some heq.symm)
    rw [step] at hstep
    split at hstep
    . rw [Option.map_eq_some_iff] at hstep
      obtain ⟨b, -, rfl⟩ := hstep
      exact (view_setView_of_ne _ hcd).trans hview
    . cases hstep
  | prepare d =>
    rw [← Option.some.inj hstep]
    exact hview
  | commit d =>
    rw [← Option.some.inj hstep, commit]
    split
    . exact hview
    . exact hview
  | rollback d =>
    have hcd : c ≠ d := fun heq => hne (congrArg some heq.symm)
    rw [← Option.some.inj hstep, view_rollback_of_ne hcd]
    exact hview

theorem view_run {es : List (VersionEvent β)} {a : α} (hrun : v.run apply es = some v')
    (hne : ∀ e ∈ es, e.reader ≠ some c) (hview : v.view c = some a) : v'.view c = some a := by
  induction es generalizing v with
  | nil =>
    rw [← Option.some.inj hrun]
    exact hview
  | cons e es ih =>
    rw [run, Option.bind_eq_some_iff] at hrun
    obtain ⟨u, hstep, hrun⟩ := hrun
    rw [List.forall_mem_cons] at hne
    exact ih hrun hne.2 (view_step hstep hne.1 hview)

end Views

end Versions
end Leaves
