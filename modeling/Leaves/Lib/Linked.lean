import Mathlib.Algebra.GroupWithZero.Nat
import Mathlib.Data.List.Basic
import Mathlib.Logic.Function.Basic

/-!
Singly linked lists. The elements are cells, a function gives the cell after each one, and a list
that is kept as its first and its last cell stands for the cells in between.
-/

namespace Leaves

variable {α : Type}

/-- Every cell leads to the one after it, the last one to `stop`. -/
def Linked (next : α → α) : List α → α → Prop
  | [], _ => True
  | a :: l, stop => next a = l.headD stop ∧ Linked next l stop

namespace Linked

variable {next next' : α → α} {l l' : List α} {a stop : α}

theorem congr (h : Linked next l stop) (heq : ∀ a ∈ l, next' a = next a) :
    Linked next' l stop := by
  induction l with
  | nil => exact h
  | cons a l ih =>
    constructor
    . rw [heq a List.mem_cons_self]
      exact h.1
    . exact ih h.2 fun b hb => heq b (List.mem_cons_of_mem a hb)

theorem append : Linked next (l ++ l') stop ↔
    Linked next l (l'.headD stop) ∧ Linked next l' stop := by
  induction l with
  | nil => simp [Linked]
  | cons a l ih =>
    simp only [List.cons_append, Linked]
    rw [ih]
    cases l with
    | nil => simp [Linked]
    | cons b l => simp [and_assoc]

variable [DecidableEq α]

theorem update (h : Linked next l stop) (hmem : a ∉ l) (b : α) :
    Linked (Function.update next a b) l stop := by
  apply h.congr
  intro c hc
  rw [Function.update_of_ne]
  rintro rfl
  exact hmem hc

/-- The last cell is led elsewhere. -/
theorem redirect (h : Linked next (l ++ [a]) stop) (hmem : a ∉ l) (b : α) :
    Linked (Function.update next a b) (l ++ [a]) b := by
  rw [append] at h ⊢
  exact ⟨h.1.update hmem b, by simp [Linked]⟩

end Linked

/-- A linked list as its first and its last cell, both `null` if there is none. -/
structure Chain (next : α → α) (null first last : α) (l : List α) : Prop where
  first_eq : first = l.headD null
  last_eq : last = l.getLastD null
  linked : Linked next l null

namespace Chain

variable {next next' : α → α} {null first last first' last' a b : α} {l l' : List α}

theorem nil : Chain next null null null [] := ⟨rfl, rfl, trivial⟩

theorem congr (h : Chain next null first last l) (heq : ∀ a ∈ l, next' a = next a) :
    Chain next' null first last l :=
  ⟨h.first_eq, h.last_eq, h.linked.congr heq⟩

theorem first_null (h : Chain next null first last l) (hnull : null ∉ l) :
    first = null ↔ l = [] := by
  rw [h.first_eq]
  cases l with
  | nil => simp
  | cons a l =>
    have hne : a ≠ null := by
      rintro rfl
      exact hnull List.mem_cons_self
    simpa using hne

theorem last_null (h : Chain next null first last l) (hnull : null ∉ l) :
    last = null ↔ l = [] := by
  rw [h.last_eq]
  rcases List.eq_nil_or_concat' l with rfl | ⟨l, b, rfl⟩
  . simp
  . have hne : b ≠ null := by
      rintro rfl
      exact hnull (by simp)
    simpa using hne

theorem first_null_iff (h : Chain next null first last l) (hnull : null ∉ l) :
    first = null ↔ last = null := by
  rw [h.first_null hnull, h.last_null hnull]

theorem last_mem (h : Chain next null first last l) (hne : l ≠ []) : last ∈ l := by
  rw [h.last_eq]
  rcases List.eq_nil_or_concat' l with rfl | ⟨l, b, rfl⟩
  . exact absurd rfl hne
  . simp

theorem single (h : next a = null) : Chain next null a a [a] := ⟨rfl, rfl, h, trivial⟩

/-- The first cell is taken off. -/
theorem pop (h : Chain next null first last (a :: l)) :
    first = a ∧ Linked next l null ∧ next a = l.headD null ∧ (l ≠ [] → last = l.getLastD null) := by
  refine ⟨h.first_eq, h.linked.2, h.linked.1, ?_⟩
  intro hne
  rw [h.last_eq]
  cases l with
  | nil => exact absurd rfl hne
  | cons b l => simp

variable [DecidableEq α]

theorem update (h : Chain next null first last l) (hmem : a ∉ l) (b : α) :
    Chain (Function.update next a b) null first last l :=
  ⟨h.first_eq, h.last_eq, h.linked.update hmem b⟩

/-- A cell is put before the others. -/
theorem push (h : Chain next null first last l) (hmem : a ∉ l) (hnull : null ∉ l) :
    Chain (Function.update next a first) null a (if last = null then a else last) (a :: l) := by
  refine ⟨rfl, ?_, ?_, h.linked.update hmem first⟩
  . split
    next hlast =>
      rw [(h.last_null hnull).mp hlast]
      rfl
    next hlast =>
      rcases List.eq_nil_or_concat' l with rfl | ⟨l, b, rfl⟩
      . exact absurd h.last_eq hlast
      . rw [h.last_eq, ← List.cons_append, List.getLastD_concat, List.getLastD_concat]
  . rw [Function.update_self, h.first_eq]

/-- The last cell of one list is led to the first one of another. -/
theorem join (h : Chain next null first last (l ++ [a])) (h' : Chain next null first' last' l')
    (hmem : a ∉ l) (hmem' : a ∉ l') (hne : l' ≠ []) :
    Chain (Function.update next a first') null first last' ((l ++ [a]) ++ l') := by
  have hredirect := h.linked.redirect hmem first'
  constructor
  . rw [h.first_eq]
    cases l <;> rfl
  . rw [h'.last_eq]
    rcases List.eq_nil_or_concat' l' with rfl | ⟨l', b, rfl⟩
    . exact absurd rfl hne
    . simp [← List.append_assoc]
  . rw [Linked.append]
    constructor
    . rw [h'.first_eq] at hredirect ⊢
      cases l' with
      | nil => exact absurd rfl hne
      | cons b l' => exact hredirect
    . exact h'.linked.update hmem' first'

/-- A cell is put behind the others. -/
theorem snoc (h : Chain next null first last l) (hne : l ≠ []) (hnodup : l.Nodup) (hmem : a ∉ l)
    (hnext : next a = null) : Chain (Function.update next last a) null first a (l ++ [a]) := by
  rcases List.eq_nil_or_concat' l with rfl | ⟨l, b, rfl⟩
  . exact absurd rfl hne
  . have hlast : last = b := by
      rw [h.last_eq, List.getLastD_concat]
    subst hlast
    rw [List.nodup_append] at hnodup
    apply h.join (Chain.single hnext) _ _ (by simp)
    . intro hb
      exact hnodup.2.2 last hb last (by simp) rfl
    . intro hb
      rw [List.mem_singleton] at hb
      apply hmem
      simp [hb]

/-- The list up to one of its cells. -/
theorem front (h : Chain next null first last ((l ++ [a]) ++ l')) (hmem : a ∉ l) :
    Chain (Function.update next a null) null first a (l ++ [a]) := by
  have hlinked := h.linked
  rw [Linked.append] at hlinked
  constructor
  . rw [h.first_eq]
    cases l <;> rfl
  . rw [List.getLastD_concat]
  . exact hlinked.1.redirect hmem null

omit [DecidableEq α] in
/-- The list behind one of its cells. -/
theorem rest (h : Chain next null first last ((l ++ [a]) ++ l')) (hne : l' ≠ []) :
    Chain next null (next a) last l' := by
  have hlinked := h.linked
  rw [Linked.append] at hlinked
  constructor
  . have hfront := Linked.append.mp hlinked.1
    rw [hfront.2.1]
    cases l' with
    | nil => exact absurd rfl hne
    | cons b l' => rfl
  . rw [h.last_eq]
    rcases List.eq_nil_or_concat' l' with rfl | ⟨l', b, rfl⟩
    . exact absurd rfl hne
    . rw [← List.append_assoc, List.getLastD_concat, List.getLastD_concat]
  . exact hlinked.2

/-- A cell in the middle is passed over: the one before it is led to the one after it. -/
theorem bypass (h : Chain next null first last ((l ++ [a]) ++ b :: l')) (hmem : a ∉ l)
    (hmem' : a ∉ l') :
    Chain (Function.update next a (next b)) null first (((l ++ [a]) ++ l').getLastD null)
      ((l ++ [a]) ++ l') := by
  have hlinked := h.linked
  rw [Linked.append] at hlinked
  have hnext : next b = l'.headD null := hlinked.2.1
  constructor
  . rw [h.first_eq]
    cases l <;> rfl
  . rfl
  . rw [Linked.append]
    constructor
    . rw [← hnext]
      exact hlinked.1.redirect hmem (next b)
    . exact hlinked.2.2.update hmem' (next b)

omit [DecidableEq α] in
/-- The last cell of a list from which a cell has been taken. -/
theorem last_without (h : Chain next null first last (l ++ b :: l')) (hnodup : (l ++ b :: l').Nodup)
    [DecidableEq α] : (if b = last then l.getLastD null else last) = (l ++ l').getLastD null := by
  rw [h.last_eq]
  rcases List.eq_nil_or_concat' l' with rfl | ⟨l', c, rfl⟩
  . simp
  . have hne : b ≠ c := by
      rintro rfl
      simp [List.nodup_append] at hnodup
    rw [← List.cons_append, ← List.append_assoc, List.getLastD_concat, if_neg hne,
      ← List.append_assoc, List.getLastD_concat]

/-- A cell is taken out: the one before it, or the pointer to the first one, is led to the one after
it. -/
theorem unlink (h : Chain next null first last (l ++ b :: l')) (hnodup : (l ++ b :: l').Nodup)
    (hnull : null ∉ l) :
    Chain (if l.getLastD null = null then next
        else Function.update next (l.getLastD null) (next b)) null
      (if l.getLastD null = null then next b else first)
      (if b = last then l.getLastD null else last) (l ++ l') := by
  rw [h.last_without hnodup]
  rcases List.eq_nil_or_concat' l with rfl | ⟨l, a, rfl⟩
  . obtain ⟨-, hlinked, hnext, -⟩ := pop h
    rw [List.getLastD_nil, if_pos rfl, if_pos rfl]
    exact ⟨hnext, rfl, hlinked⟩
  . have ha : a ≠ null := by
      rintro rfl
      exact hnull (by simp)
    rw [List.getLastD_concat, if_neg ha, if_neg ha]
    rw [List.append_assoc, List.nodup_append] at hnodup
    apply h.bypass
    . intro hmem
      exact hnodup.2.2 a hmem a (by simp) rfl
    . intro hmem
      exact (List.nodup_cons.mp hnodup.2.1).1 (List.mem_cons_of_mem b hmem)

end Chain
end Leaves
