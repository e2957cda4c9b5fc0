import Mathlib.Algebra.GroupWithZero.Nat
import Mathlib.Data.List.Forall2
import Mathlib.Order.Bounds.Basic
import Mathlib.Order.Lattice

/-!
Ordered maps as lists of entries with ascending keys: looking up, inserting and erasing a key, and a
cursor that steps from key to key.
-/

namespace Leaves
namespace OrdMap

variable {α β : Type} [LinearOrder α]

/-- Entries whose keys ascend. -/
def Ascending (es : List (α × β)) : Prop := es.Pairwise (fun e e' => e.1 < e'.1)

instance (es : List (α × β)) : Decidable (Ascending es) :=
  inferInstanceAs (Decidable (es.Pairwise _))

def lookup (es : List (α × β)) (k : α) : Option β := (es.find? (fun e => e.1 = k)).map (·.2)

/-- The entries with smaller keys. -/
def below (es : List (α × β)) (k : α) : List (α × β) := es.filter (fun e => e.1 < k)

/-- The entries with bigger keys. -/
def above (es : List (α × β)) (k : α) : List (α × β) := es.filter (fun e => k < e.1)

def insert (es : List (α × β)) (k : α) (v : β) : List (α × β) := below es k ++ (k, v) :: above es k

def erase (es : List (α × β)) (k : α) : List (α × β) := below es k ++ above es k

theorem mem_insert {es : List (α × β)} {k : α} {v : β} {e : α × β} (h : e ∈ insert es k v) :
    e = (k, v) ∨ e ∈ es := by
  rw [insert, List.mem_append, List.mem_cons] at h
  rcases h with h | h | h
  . exact Or.inr (List.mem_filter.mp h).1
  . exact Or.inl h
  . exact Or.inr (List.mem_filter.mp h).1

theorem mem_of_mem_erase {es : List (α × β)} {k : α} {e : α × β} (h : e ∈ erase es k) : e ∈ es := by
  rw [erase, List.mem_append] at h
  rcases h with h | h
  . exact (List.mem_filter.mp h).1
  . exact (List.mem_filter.mp h).1

/-- The smallest key of the map. -/
def first (es : List (α × β)) : Option α := es.head?.map (·.1)

/-- The biggest key of the map. -/
def last (es : List (α × β)) : Option α := es.getLast?.map (·.1)

/-- The smallest key behind `k`. -/
def next (es : List (α × β)) (k : α) : Option α := first (above es k)

/-- The biggest key in front of `k`. -/
def prev (es : List (α × β)) (k : α) : Option α := last (below es k)

@[simp]
theorem ascending_nil : Ascending ([] : List (α × β)) := List.Pairwise.nil

theorem ascending_append {l r : List (α × β)} :
    Ascending (l ++ r) ↔ Ascending l ∧ Ascending r ∧ ∀ x ∈ l, ∀ y ∈ r, x.1 < y.1 :=
  List.pairwise_append

theorem ascending_cons {e : α × β} {r : List (α × β)} :
    Ascending (e :: r) ↔ (∀ y ∈ r, e.1 < y.1) ∧ Ascending r :=
  List.pairwise_cons

section Around

variable {l r : List (α × β)} {k : α}

theorem below_append (hl : ∀ x ∈ l, x.1 < k) (hr : ∀ x ∈ r, k ≤ x.1) : below (l ++ r) k = l := by
  rw [below, List.filter_append]
  rw [List.filter_eq_self.mpr (by simpa using hl)]
  rw [List.filter_eq_nil_iff.mpr (by simpa using hr)]
  simp

theorem above_append (hl : ∀ x ∈ l, x.1 ≤ k) (hr : ∀ x ∈ r, k < x.1) : above (l ++ r) k = r := by
  rw [above, List.filter_append]
  rw [List.filter_eq_nil_iff.mpr (by simpa using hl)]
  rw [List.filter_eq_self.mpr (by simpa using hr)]
  simp

theorem next_append (hl : ∀ x ∈ l, x.1 ≤ k) (hr : ∀ x ∈ r, k < x.1) :
    next (l ++ r) k = first r := by
  rw [next, above_append hl hr]

theorem prev_append (hl : ∀ x ∈ l, x.1 < k) (hr : ∀ x ∈ r, k ≤ x.1) :
    prev (l ++ r) k = last l := by
  rw [prev, below_append hl hr]

theorem lookup_append_cons {v : β} (hl : ∀ x ∈ l, x.1 < k) :
    lookup (l ++ (k, v) :: r) k = some v := by
  have hnone : l.find? (fun e => e.1 = k) = none := by
    rw [List.find?_eq_none]
    intro x hx
    rw [decide_eq_true_eq]
    exact ne_of_lt (hl x hx)
  rw [lookup, List.find?_append, hnone]
  simp

theorem insert_append {v : β} (hl : ∀ x ∈ l, x.1 < k) (hr : ∀ x ∈ r, k < x.1) :
    insert (l ++ r) k v = l ++ (k, v) :: r := by
  rw [insert]
  rw [below_append hl (fun x hx => le_of_lt (hr x hx))]
  rw [above_append (fun x hx => le_of_lt (hl x hx)) hr]

theorem insert_append_cons {v w : β} (hl : ∀ x ∈ l, x.1 < k) (hr : ∀ x ∈ r, k < x.1) :
    insert (l ++ (k, w) :: r) k v = l ++ (k, v) :: r := by
  have hbelow : below (l ++ (k, w) :: r) k = l := by
    refine below_append hl ?_
    intro x hx
    rcases List.mem_cons.mp hx with rfl | hx
    . exact le_refl _
    . exact le_of_lt (hr x hx)
  have habove : above ((l ++ [(k, w)]) ++ r) k = r := by
    refine above_append ?_ hr
    intro x hx
    rcases List.mem_append.mp hx with hx | hx
    . exact le_of_lt (hl x hx)
    . rw [List.mem_singleton.mp hx]
  rw [List.append_assoc, List.singleton_append] at habove
  rw [insert, hbelow, habove]

theorem erase_append_cons {w : β} (hl : ∀ x ∈ l, x.1 < k) (hr : ∀ x ∈ r, k < x.1) :
    erase (l ++ (k, w) :: r) k = l ++ r := by
  have h := insert_append_cons (v := w) (w := w) hl hr
  rw [insert] at h
  have hbelow : below (l ++ (k, w) :: r) k = l := by
    refine below_append hl ?_
    intro x hx
    rcases List.mem_cons.mp hx with rfl | hx
    . exact le_refl _
    . exact le_of_lt (hr x hx)
  rw [hbelow, List.append_cancel_left_eq, List.cons.injEq] at h
  rw [erase, hbelow, h.2]

end Around

/-- The map cut in two behind `k`. -/
structure CutAbove (es : List (α × β)) (k : α) (l r : List (α × β)) : Prop where
  eq : es = l ++ r
  le : ∀ x ∈ l, x.1 ≤ k
  lt : ∀ x ∈ r, k < x.1

/-- The map cut in two in front of `k`. -/
structure CutBelow (es : List (α × β)) (k : α) (l r : List (α × β)) : Prop where
  eq : es = l ++ r
  lt : ∀ x ∈ l, x.1 < k
  le : ∀ x ∈ r, k ≤ x.1

theorem CutAbove.next {es l r : List (α × β)} {k : α} (h : CutAbove es k l r) :
    next es k = first r := by
  rw [h.eq, next_append h.le h.lt]

theorem CutBelow.prev {es l r : List (α × β)} {k : α} (h : CutBelow es k l r) :
    prev es k = last l := by
  rw [h.eq, prev_append h.lt h.le]

/-- An entry of a map splits it into the smaller and the bigger keys. -/
theorem Ascending.around {l r : List (α × β)} {e : α × β} (h : Ascending (l ++ e :: r)) :
    (∀ x ∈ l, x.1 < e.1) ∧ (∀ x ∈ r, e.1 < x.1) := by
  rw [ascending_append, ascending_cons] at h
  exact ⟨fun x hx => h.2.2 x hx e (by simp), h.2.1.1⟩

theorem erase_cons {e : α × β} {es : List (α × β)} (h : Ascending (e :: es)) :
    erase (e :: es) e.1 = es :=
  erase_append_cons (l := []) (by simp) (ascending_cons.mp h).1

theorem next_cons {e : α × β} {es : List (α × β)} (h : Ascending (e :: es)) :
    next (e :: es) e.1 = first es :=
  next_append (l := [e]) (by simp) (ascending_cons.mp h).1

theorem lookup_eq_some_iff {es : List (α × β)} {k : α} {v : β} (h : Ascending es) :
    lookup es k = some v ↔ (k, v) ∈ es := by
  constructor
  . intro hk
    rw [lookup, Option.map_eq_some_iff] at hk
    obtain ⟨e, he, rfl⟩ := hk
    have hmem := List.mem_of_find?_eq_some he
    have hkey := List.find?_some he
    rw [decide_eq_true_eq] at hkey
    rw [← hkey]
    exact hmem
  . intro hk
    obtain ⟨l, r, rfl⟩ := List.append_of_mem hk
    exact lookup_append_cons h.around.1

theorem Ascending.nodup {es : List (α × β)} (h : Ascending es) : es.Nodup := by
  refine List.Pairwise.imp ?_ h
  intro a b hlt heq
  rw [heq] at hlt
  exact lt_irrefl _ hlt

/-- The begin of a map is determined by what comes next. -/
theorem Ascending.prefix_unique {es l l' : List (α × β)} (h : Ascending es) (hl : l <+: es)
    (hl' : l' <+: es) (heq : es[l.length]? = es[l'.length]?) : l = l' := by
  have hlen : l.length = l'.length := by
    by_cases hlt : l.length < es.length
    . exact (List.getElem?_inj hlt h.nodup).mp heq
    . have hge := List.getElem?_eq_none_iff.mp
        (heq.symm.trans (List.getElem?_eq_none (Nat.le_of_not_lt hlt)))
      have h1 := hl.length_le
      have h2 := hl'.length_le
      omega
  rw [List.prefix_iff_eq_take.mp hl, List.prefix_iff_eq_take.mp hl', hlen]

/-- A map is determined by its entries. -/
theorem Ascending.ext {es es' : List (α × β)} (h : Ascending es) (h' : Ascending es')
    (hmem : ∀ e, e ∈ es ↔ e ∈ es') : es = es' := by
  have hperm := (List.perm_ext_iff_of_nodup h.nodup h'.nodup).mpr hmem
  exact hperm.eq_of_pairwise (fun a b _ _ hab hba => absurd (lt_trans hab hba) (lt_irrefl _)) h h'

theorem lookup_eq_none_iff {es : List (α × β)} {k : α} :
    lookup es k = none ↔ ∀ x ∈ es, x.1 ≠ k := by
  rw [lookup, Option.map_eq_none_iff, List.find?_eq_none]
  simp only [decide_eq_true_eq, ne_eq]

theorem mem_of_lookup {es : List (α × β)} {k : α} {v : β} (h : lookup es k = some v) :
    (k, v) ∈ es := by
  rw [lookup, Option.map_eq_some_iff] at h
  obtain ⟨e, he, rfl⟩ := h
  have hkey := List.find?_some he
  rw [decide_eq_true_eq] at hkey
  rw [← hkey]
  exact List.mem_of_find?_eq_some he

theorem lookup_append (l r : List (α × β)) (k : α) :
    lookup (l ++ r) k = (lookup l k).or (lookup r k) := by
  rw [lookup, List.find?_append]
  cases h : l.find? (fun x => x.1 = k) <;> simp [lookup, h]

theorem lookup_filter {es : List (α × β)} {k : α} {p : α × β → Bool}
    (h : ∀ x ∈ es, x.1 = k → p x = true) : lookup (es.filter p) k = lookup es k := by
  induction es with
  | nil => rfl
  | cons x es ih =>
    have ih := ih fun y hy => h y (List.mem_cons_of_mem _ hy)
    have hx := h x List.mem_cons_self
    rw [List.filter_cons]
    by_cases hk : x.1 = k
    . rw [hx hk, if_pos rfl]
      simp [lookup, hk]
    . cases p x with
      | true => simpa [lookup, hk] using ih
      | false => simpa [lookup, hk] using ih

theorem lookup_filter_eq_none {es : List (α × β)} {k : α} {p : α × β → Bool}
    (h : ∀ x ∈ es, x.1 = k → p x = false) : lookup (es.filter p) k = none := by
  rw [lookup_eq_none_iff]
  intro x hx hk
  rw [List.mem_filter] at hx
  rw [h x hx.1 hk] at hx
  simp at hx

theorem lookup_below (es : List (α × β)) (k k' : α) :
    lookup (below es k) k' = if k' < k then lookup es k' else none := by
  split
  next h => exact lookup_filter fun x _ hx => by simpa [hx] using h
  next h => exact lookup_filter_eq_none fun x _ hx => by simpa [hx] using h

theorem lookup_above (es : List (α × β)) (k k' : α) :
    lookup (above es k) k' = if k < k' then lookup es k' else none := by
  split
  next h => exact lookup_filter fun x _ hx => by simpa [hx] using h
  next h => exact lookup_filter_eq_none fun x _ hx => by simpa [hx] using h

@[simp]
theorem lookup_nil (k : α) : lookup ([] : List (α × β)) k = none := rfl

theorem lookup_cons (e : α × β) (es : List (α × β)) (k : α) :
    lookup (e :: es) k = if e.1 = k then some e.2 else lookup es k := by
  by_cases h : e.1 = k <;> simp [lookup, h]

theorem lookup_mapValue {γ : Type} (f : β → γ) (es : List (α × β)) (k : α) :
    lookup (es.map fun e => (e.1, f e.2)) k = (lookup es k).map f := by
  induction es with
  | nil => rfl
  | cons e es ih =>
    rw [List.map_cons, lookup_cons, lookup_cons, ih]
    split <;> rfl

/-- A new value for a key and the old ones for the others. -/
theorem lookup_insert (es : List (α × β)) (k : α) (v : β) (k' : α) :
    lookup (insert es k v) k' = if k' = k then some v else lookup es k' := by
  rw [insert, lookup_append, lookup_below, lookup_cons, lookup_above]
  rcases lt_trichotomy k' k with h | h | h
  . simp [h, h.ne, h.ne', h.not_gt]
  . simp [h]
  . simp [h, h.ne, h.ne', h.not_gt]

theorem lookup_erase (es : List (α × β)) (k k' : α) :
    lookup (erase es k) k' = if k' = k then none else lookup es k' := by
  rw [erase, lookup_append, lookup_below, lookup_above]
  rcases lt_trichotomy k' k with h | h | h
  . simp [h, h.ne, h.not_gt]
  . simp [h]
  . simp [h, h.ne', h.not_gt]

/-- Inserting the entries of another map. -/
theorem lookup_foldl_insert {es : List (α × β)} (h : Ascending es) (m : List (α × β)) (k : α) :
    lookup (es.foldl (fun m e => insert m e.1 e.2) m) k = (lookup es k).or (lookup m k) := by
  induction es generalizing m with
  | nil => simp
  | cons e es ih =>
    rw [List.foldl_cons, ih (List.pairwise_cons.mp h).2, lookup_insert, lookup_cons]
    by_cases hk : e.1 = k
    . have hnone : lookup es k = none := by
        rw [lookup_eq_none_iff]
        intro x hx hxk
        have hlt := (List.pairwise_cons.mp h).1 x hx
        rw [hk, hxk] at hlt
        exact lt_irrefl _ hlt
      simp [hk, hnone]
    . simp [hk, Ne.symm hk]

theorem ascending_insert {es : List (α × β)} {k : α} {v : β} (h : Ascending es) :
    Ascending (insert es k v) := by
  rw [insert, ascending_append, ascending_cons]
  refine ⟨h.filter _, ⟨?_, h.filter _⟩, ?_⟩
  . intro y hy
    simpa using (List.mem_filter.mp hy).2
  . intro x hx y hy
    have hxk : x.1 < k := by simpa using (List.mem_filter.mp hx).2
    rcases List.mem_cons.mp hy with rfl | hy
    . exact hxk
    . have hky : k < y.1 := by simpa using (List.mem_filter.mp hy).2
      exact lt_trans hxk hky

/-- Inserting what is there already changes nothing, everything else does. -/
theorem insert_eq_self_iff {es : List (α × β)} (h : Ascending es) (k : α) (v : β) :
    insert es k v = es ↔ lookup es k = some v := by
  constructor
  . intro heq
    rw [← heq, lookup_insert, if_pos rfl]
  . intro hk
    refine (ascending_insert h).ext h fun e => ?_
    rw [← lookup_eq_some_iff (ascending_insert h), ← lookup_eq_some_iff h, lookup_insert]
    split
    next heq => rw [heq, hk]
    next => exact Iff.rfl

theorem ascending_erase {es : List (α × β)} {k : α} (h : Ascending es) :
    Ascending (erase es k) := by
  rw [erase, ascending_append]
  refine ⟨h.filter _, h.filter _, ?_⟩
  intro x hx y hy
  have hxk : x.1 < k := by simpa using (List.mem_filter.mp hx).2
  have hky : k < y.1 := by simpa using (List.mem_filter.mp hy).2
  exact lt_trans hxk hky

/-- `next` is the least key behind `k`. -/
theorem next_eq_some_iff {es : List (α × β)} {k k' : α} (h : Ascending es) :
    next es k = some k' ↔ IsLeast {x | k < x ∧ ∃ v, (x, v) ∈ es} k' := by
  have hasc : Ascending (above es k) := h.filter _
  have hmem : ∀ x v, (x, v) ∈ above es k ↔ k < x ∧ (x, v) ∈ es := by
    intro x v
    simp [above, and_comm]
  rw [next, first]
  match habove : above es k with
  | [] =>
    simp only [List.head?_nil, Option.map_none, reduceCtorEq, false_iff]
    rintro ⟨⟨hlt, v, hv⟩, -⟩
    have := (hmem k' v).mpr ⟨hlt, hv⟩
    simp [habove] at this
  | e :: r =>
    rw [habove, ascending_cons] at hasc
    have he : k < e.1 ∧ (e.1, e.2) ∈ es := (hmem e.1 e.2).mp (by simp [habove])
    have hleast : IsLeast {x | k < x ∧ ∃ v, (x, v) ∈ es} e.1 := by
      refine ⟨⟨he.1, e.2, he.2⟩, ?_⟩
      rintro x ⟨hlt, v, hv⟩
      have hx := (hmem x v).mpr ⟨hlt, hv⟩
      rw [habove, List.mem_cons] at hx
      rcases hx with rfl | hx
      . exact le_refl _
      . exact le_of_lt (hasc.1 _ hx)
    simp only [List.head?_cons, Option.map_some, Option.some.injEq]
    constructor
    . rintro rfl
      exact hleast
    . exact hleast.unique

/-- The steps of a cursor over a map. -/
inductive Move (α : Type) where
  | find (k : α)
  | first
  | last
  | next
  | prev

/-- A cursor is at a key, whether the map has it or not, or it has run off the map. -/
def step (es : List (α × β)) (pos : Option α) : Move α → Option α
  | .find k => some k
  | .first => first es
  | .last => last es
  | .next => pos.bind (next es)
  | .prev => pos.bind (prev es)

def walk (es : List (α × β)) (pos : Option α) (moves : List (Move α)) : Option α :=
  moves.foldl (step es) pos

/-- The entry a cursor shows. -/
def entryAt (es : List (α × β)) (pos : Option α) : Option (α × β) :=
  pos.bind (fun k => (lookup es k).map (fun v => (k, v)))

section Walk

variable {es : List (α × β)}

theorem entryAt_of_mem {e : α × β} (h : Ascending es) (he : e ∈ es) :
    entryAt es (some e.1) = some e := by
  have hlookup : lookup es e.1 = some e.2 := (lookup_eq_some_iff h).mpr he
  rw [entryAt, Option.bind_some, hlookup]
  rfl

theorem entryAt_first (h : Ascending es) : entryAt es (first es) = es.head? := by
  cases es with
  | nil => rfl
  | cons e es => exact entryAt_of_mem h List.mem_cons_self

theorem walk_append_singleton (pos : Option α) (moves : List (Move α)) (move : Move α) :
    walk es pos (moves ++ [move]) = step es (walk es pos moves) move := by
  simp [walk]

theorem next_getElem {n : Nat} (h : Ascending es) (hn : n < es.length) :
    next es es[n].1 = es[n + 1]?.map (·.1) := by
  have hsplit : es = es.take (n + 1) ++ es.drop (n + 1) := (List.take_append_drop _ _).symm
  have hcut : CutAbove es es[n].1 (es.take (n + 1)) (es.drop (n + 1)) := by
    refine ⟨hsplit, ?_, ?_⟩
    . intro x hx
      obtain ⟨i, hi, rfl⟩ := List.mem_take_iff_getElem.mp hx
      rcases Nat.lt_or_eq_of_le (Nat.le_of_lt_succ (Nat.lt_of_lt_of_le hi (Nat.min_le_left _ _))) with
        hlt | rfl
      . exact le_of_lt (List.pairwise_iff_getElem.mp h i n _ hn hlt)
      . exact le_refl _
    . intro x hx
      obtain ⟨i, hi, rfl⟩ := List.mem_drop_iff_getElem.mp hx
      exact List.pairwise_iff_getElem.mp h n _ hn _ (by omega)
  rw [hcut.next, first, List.head?_drop]

theorem prev_getElem {n : Nat} (h : Ascending es) (hn : n < es.length) :
    prev es es[n].1 = if n = 0 then none else es[n - 1]?.map (·.1) := by
  have hsplit : es = es.take n ++ es.drop n := (List.take_append_drop _ _).symm
  have hcut : CutBelow es es[n].1 (es.take n) (es.drop n) := by
    refine ⟨hsplit, ?_, ?_⟩
    . intro x hx
      obtain ⟨i, hi, rfl⟩ := List.mem_take_iff_getElem.mp hx
      exact List.pairwise_iff_getElem.mp h i n _ hn (Nat.lt_of_lt_of_le hi (Nat.min_le_left _ _))
    . intro x hx
      obtain ⟨i, hi, rfl⟩ := List.mem_drop_iff_getElem.mp hx
      rcases Nat.eq_zero_or_pos i with rfl | hpos
      . exact le_refl _
      . exact le_of_lt (List.pairwise_iff_getElem.mp h n _ hn _ (by omega))
  rw [hcut.prev, last, List.getLast?_take]
  split
  . rfl
  . rw [List.getElem?_eq_getElem (show n - 1 < es.length by omega)]
    rfl

/-- `first` and then `next` again and again comes to one entry after the other. -/
theorem walk_first_next (h : Ascending es) (pos : Option α) (n : Nat) :
    walk es pos (.first :: List.replicate n .next) = es[n]?.map (·.1) := by
  induction n with
  | zero => simp [walk, step, first, List.head?_eq_getElem?]
  | succ n ih =>
    rw [List.replicate_succ', ← List.cons_append, walk_append_singleton, ih]
    rcases Nat.lt_or_ge n es.length with hn | hn
    . rw [List.getElem?_eq_getElem hn]
      exact next_getElem h hn
    . rw [List.getElem?_eq_none hn, List.getElem?_eq_none (by omega)]
      rfl

/-- `last` and then `prev` again and again comes to one entry after the other from behind. -/
theorem walk_last_prev (h : Ascending es) (pos : Option α) (n : Nat) :
    walk es pos (.last :: List.replicate n .prev) = es.reverse[n]?.map (·.1) := by
  induction n with
  | zero => simp [walk, step, last, List.getLast?_eq_head?_reverse, List.head?_eq_getElem?]
  | succ n ih =>
    rw [List.replicate_succ', ← List.cons_append, walk_append_singleton, ih]
    rcases Nat.lt_or_ge n es.length with hn | hn
    . rw [List.getElem?_eq_getElem (by simpa using hn), List.getElem_reverse]
      refine (prev_getElem h (by omega)).trans ?_
      split
      next h0 => rw [List.getElem?_eq_none (by simp; omega), Option.map_none]
      next h0 =>
        rw [List.getElem?_reverse (by omega)]
        congr 2
    . rw [List.getElem?_eq_none (by simpa using hn), List.getElem?_eq_none (by simp; omega)]
      rfl

end Walk

section Related

variable {γ : Type} {R : β → γ → Prop} {es : List (α × β)} {es' : List (α × γ)}

/-- The maps have the same keys, with related values. -/
def Related (R : β → γ → Prop) (es : List (α × β)) (es' : List (α × γ)) : Prop :=
  List.Forall₂ (fun x y => x.1 = y.1 ∧ R x.2 y.2) es es'

omit [LinearOrder α] in
theorem Related.filter (h : Related R es es') (p : α → Bool) :
    Related R (es.filter fun x => p x.1) (es'.filter fun x => p x.1) :=
  List.rel_filter (fun _ _ hxy => iff_of_eq (congrArg (p · = true) hxy.1)) h

omit [LinearOrder α] in
theorem Related.append {fs : List (α × β)} {fs' : List (α × γ)} (h : Related R es es')
    (h' : Related R fs fs') : Related R (es ++ fs) (es' ++ fs') :=
  List.rel_append h h'

theorem Related.erase (h : Related R es es') (k : α) : Related R (erase es k) (erase es' k) :=
  (h.filter (· < k)).append (h.filter (k < ·))

theorem Related.insert (h : Related R es es') (k : α) {v : β} {w : γ} (hv : R v w) :
    Related R (insert es k v) (insert es' k w) :=
  (h.filter (· < k)).append (List.Forall₂.cons ⟨rfl, hv⟩ (h.filter (k < ·)))

theorem Related.lookup_isSome (h : Related R es es') (k : α) :
    (lookup es k).isSome = (lookup es' k).isSome := by
  rw [lookup, lookup, Option.isSome_map, Option.isSome_map]
  induction h with
  | nil => rfl
  | cons hxy _ ih => simp only [List.find?_cons, hxy.1]; split <;> simp_all

omit [LinearOrder α] in
theorem Related.keys (h : Related R es es') : es.map (·.1) = es'.map (·.1) := by
  induction h with
  | nil => rfl
  | cons hxy _ ih => rw [List.map_cons, List.map_cons, ih, hxy.1]

omit [LinearOrder α] in
/-- What is made of related values may be the same. -/
theorem Related.map_eq {δ : Type} {f : β → δ} {g : γ → δ} (h : Related R es es')
    (hfg : ∀ y ∈ es', ∀ v, R v y.2 → f v = g y.2) :
    es.map (fun e => (e.1, f e.2)) = es'.map (fun e => (e.1, g e.2)) := by
  induction h with
  | nil => rfl
  | @cons x y es es' hxy _ ih =>
    have hrest := ih fun y' hy' => hfg y' (List.mem_cons_of_mem _ hy')
    rw [List.map_cons, List.map_cons, hrest, hxy.1, hfg y List.mem_cons_self x.2 hxy.2]

theorem ascending_iff_keys {es : List (α × β)} :
    Ascending es ↔ (es.map (·.1)).Pairwise (· < ·) := by
  rw [List.pairwise_map]
  rfl

theorem Related.ascending (h : Related R es es') (hes : Ascending es) : Ascending es' := by
  rw [ascending_iff_keys] at hes ⊢
  rwa [← h.keys]

end Related

/-- Erasing a key that is not there changes nothing. -/
theorem erase_of_lookup_eq_none {es : List (α × β)} {k : α} (h : Ascending es)
    (hk : lookup es k = none) : erase es k = es := by
  rw [lookup_eq_none_iff] at hk
  induction es with
  | nil => rfl
  | cons e es ih =>
    rw [ascending_cons] at h
    have hrest := ih h.2 fun x hx => hk x (List.mem_cons_of_mem _ hx)
    rw [erase, below, above] at hrest ⊢
    rcases lt_trichotomy e.1 k with hlt | heq | hgt
    . rw [List.filter_cons_of_pos (by simpa using hlt), List.filter_cons_of_neg (by simpa using hlt.le),
        List.cons_append, hrest]
    . exact absurd heq (hk e (by simp))
    . have hall : ∀ x ∈ es, k < x.1 := fun x hx => hgt.trans (h.1 x hx)
      rw [List.filter_eq_nil_iff.mpr, List.nil_append, List.filter_eq_self.mpr]
      . intro x hx
        rcases List.mem_cons.mp hx with rfl | hx
        . simpa using hgt
        . simpa using hall x hx
      . intro x hx
        rcases List.mem_cons.mp hx with rfl | hx
        . simpa using hgt.le
        . simpa using (hall x hx).le

theorem perm_erase {es : List (α × β)} {k : α} {v : β} (h : Ascending es)
    (hk : lookup es k = some v) : es.Perm ((k, v) :: erase es k) := by
  obtain ⟨l, r, rfl⟩ := List.append_of_mem ((lookup_eq_some_iff h).mp hk)
  obtain ⟨hl, hr⟩ := h.around
  rw [erase_append_cons hl hr]
  exact List.perm_middle

theorem erase_comm {es : List (α × β)} (h : Ascending es) (k k' : α) :
    erase (erase es k) k' = erase (erase es k') k := by
  have hl : Ascending (erase (erase es k) k') := ascending_erase (ascending_erase h)
  have hr : Ascending (erase (erase es k') k) := ascending_erase (ascending_erase h)
  apply hl.ext hr
  intro e
  rw [← lookup_eq_some_iff hl, ← lookup_eq_some_iff hr]
  simp only [lookup_erase]
  by_cases h₁ : e.1 = k <;> by_cases h₂ : e.1 = k' <;> simp [h₁, h₂]

theorem length_erase {es : List (α × β)} {k : α} {v : β} (h : Ascending es)
    (hk : lookup es k = some v) : (erase es k).length + 1 = es.length := by
  rw [(perm_erase h hk).length_eq, List.length_cons]

theorem length_insert_le (es : List (α × β)) (k : α) (v : β) :
    (insert es k v).length ≤ es.length + 1 := by
  have hdisjoint : (es.countP fun e => e.1 < k) + (es.countP fun e => k < e.1) ≤ es.length := by
    induction es with
    | nil => simp
    | cons e es ih =>
      rw [List.countP_cons, List.countP_cons, List.length_cons]
      rcases lt_trichotomy e.1 k with h | h | h
      . simp [h, h.not_gt]
        omega
      . simp [h]
        omega
      . simp [h, h.not_gt]
        omega
  rw [insert, List.length_append, List.length_cons, below, above, ← List.countP_eq_length_filter,
    ← List.countP_eq_length_filter]
  omega

theorem perm_insert {es : List (α × β)} {k : α} {v : β} (h : Ascending es)
    (hk : lookup es k = none) : (insert es k v).Perm ((k, v) :: es) := by
  have herase := erase_of_lookup_eq_none h hk
  rw [insert]
  refine List.perm_middle.trans ?_
  rw [← erase, herase]

end OrdMap
end Leaves
