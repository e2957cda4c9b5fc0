import Mathlib.Data.List.Induction
import Leaves.Multi.Merging

/-!
A tributary on its own, with its cursor: what the two tries say about the operations since the last
reset, and what a merge makes of them.
-/

namespace Leaves

open OrdMap

/-- A tributary with the cursor that writes to it. -/
structure TributaryDB where
  /-- the committed transaction -/
  committed : Tries
  /-- the open transaction -/
  active : Option Tries
  cursor : MapCursor

inductive TributaryEvent where
  | startTransaction
  | find (key : Key)
  | value (v : Value)
  /-- The cursor comes to rest at `next`. -/
  | remove (next : Option Key)
  | removeKey (key : Key) (next : Option Key)
  | commit
  | rollback
  /-- another cursor goes on, an open transaction is rolled back -/
  | createCursor
  | resetInPlace

namespace TributaryDB

/-- A new tributary. -/
def create : TributaryDB := ⟨.empty, none, .init⟩

/-- The tries the cursor works on. -/
def tries (s : TributaryDB) : Tries := s.active.getD s.committed

/-- The base cursor starts a transaction before the first write. -/
def write (s : TributaryDB) (r : Tries × MapCursor) : TributaryDB :=
  { s with active := some r.1, cursor := r.2 }

/-- The tombstone is looked for before a transaction is started, what comes of clearing it then is
not known. -/
def value (s : TributaryDB) (v : Value) : Option TributaryDB :=
  if s.active = none ∧ s.committed.isDeleted s.cursor.currentKey = true then none
  else (s.tries.value s.cursor v).map s.write

def remove (s : TributaryDB) (next : Option Key) : Option TributaryDB :=
  if s.cursor.isValid s.tries.data then (s.tries.remove s.cursor next).map s.write else some s

/-- `_insert_tombstone` asserts that there is a transaction. -/
def removeKey (s : TributaryDB) (key : Key) (next : Option Key) : Option TributaryDB :=
  if MAX_KEY_SIZE < key.length then some s
  else if s.active = none ∧ (s.tries.found key) = false then none
  else (s.tries.removeKey s.cursor key next).map s.write

def rollback (s : TributaryDB) : TributaryDB :=
  match s.active with
  | none => s
  | some _ => { s with active := none, cursor := s.cursor.refind s.committed.data }

def step (s : TributaryDB) : TributaryEvent → Option TributaryDB
  | .startTransaction => some { s with active := some s.tries }
  | .find key => some { s with cursor := s.cursor.find s.tries.data key }
  | .value v => s.value v
  | .remove next => s.remove next
  | .removeKey key next => s.removeKey key next
  | .commit => some { s with committed := s.tries, active := none }
  | .rollback => some s.rollback
  | .createCursor => some { s with active := none, cursor := .init }
  -- an open transaction makes it throw
  | .resetInPlace => some (if s.active = none then create else s)

end TributaryDB

/-- An operation on a key: a value, or nothing for a removal. -/
abbrev Operation := Key × Option Value

namespace Operation

/-- What an operation does with a map. -/
def apply (m : List (Key × Value)) (op : Operation) : List (Key × Value) :=
  match op.2 with
  | some v => insert m op.1 v
  | none => erase m op.1

/-- The last operation on a key. -/
def last (ops : List Operation) (k : Key) : Option (Option Value) :=
  ops.foldl (fun r op => if k = op.1 then some op.2 else r) none

theorem last_concat (ops : List Operation) (op : Operation) (k : Key) :
    last (ops ++ [op]) k = if k = op.1 then some op.2 else last ops k := by
  rw [last, List.foldl_append]
  rfl

theorem lookup_apply (m : List (Key × Value)) (op : Operation) (k : Key) :
    lookup (apply m op) k = if k = op.1 then op.2 else lookup m k := by
  rw [apply]
  split
  next v hv =>
    rw [lookup_insert]
    by_cases hk : k = op.1 <;> simp [hk, hv]
  next hv =>
    rw [lookup_erase]
    by_cases hk : k = op.1 <;> simp [hk, hv]

theorem ascending_apply {m : List (Key × Value)} (h : Ascending m) (op : Operation) :
    Ascending (apply m op) := by
  rw [apply]
  split
  . exact ascending_insert h
  . exact ascending_erase h

theorem ascending_foldl_apply {m : List (Key × Value)} (h : Ascending m) (ops : List Operation) :
    Ascending (ops.foldl apply m) := by
  induction ops generalizing m with
  | nil => exact h
  | cons op ops ih => exact ih (ascending_apply h op)

/-- Only the last operation on a key counts. -/
theorem lookup_foldl_apply (m : List (Key × Value)) (ops : List Operation) (k : Key) :
    lookup (ops.foldl apply m) k = (last ops k).getD (lookup m k) := by
  induction ops using List.reverseRecOn with
  | nil => rfl
  | append_singleton ops op ih =>
    rw [List.foldl_append, List.foldl_cons, List.foldl_nil, lookup_apply, ih, last_concat]
    split
    . rfl
    . rfl

end Operation

/-- A run of a tributary beside the operations that have been made since the last reset. -/
structure TributaryTrace where
  db : TributaryDB
  /-- the operations of the committed transactions -/
  committed : List Operation
  /-- and of the open one -/
  operations : List Operation

namespace TributaryTrace

def create : TributaryTrace := ⟨.create, [], []⟩

/-- The operation an event stands for: `value` is meant for the key that has been searched for. -/
def operation (s : TributaryDB) : TributaryEvent → List Operation
  | .value v =>
    if s.cursor.target = none ∧ s.tries.data ≠ [] then [] else [(s.cursor.key, some v)]
  | .remove _ => if s.cursor.isValid s.tries.data then [(s.cursor.key, none)] else []
  | .removeKey key _ => if MAX_KEY_SIZE < key.length then [] else [(key, none)]
  | _ => []

def next (t : TributaryTrace) (db : TributaryDB) : TributaryEvent → TributaryTrace
  | .commit => ⟨db, t.operations, t.operations⟩
  | .rollback | .createCursor => ⟨db, t.committed, t.committed⟩
  | .resetInPlace => if t.db.active = none then create else t
  | e => ⟨db, t.committed, t.operations ++ operation t.db e⟩

def step (t : TributaryTrace) (e : TributaryEvent) : Option TributaryTrace :=
  (t.db.step e).map fun db => t.next db e

def run (t : TributaryTrace) : List TributaryEvent → Option TributaryTrace
  | [] => some t
  | e :: es => (t.step e).bind fun t => run t es

/-- `value` would throw `NoValidPosition`. -/
def Nowhere (s : TributaryDB) : Prop := s.cursor.target = none ∧ s.tries.data ≠ []

instance (s : TributaryDB) : Decidable (Nowhere s) := inferInstanceAs (Decidable (_ ∧ _))

/-- The tombstone a write clears is the one of its key, there is none if it throws or starts the
transaction. A write into an empty trie starts with an empty `current_key`. -/
def ValueOk (s : TributaryDB) : Prop :=
  (s.active = none ∨ Nowhere s → s.tries.isDeleted s.cursor.currentKey = false) ∧
    (¬Nowhere s → (s.tries.data = [] → s.cursor.currentKey = []) ∧
      s.tries.Clears s.cursor s.cursor.key)

instance (s : TributaryDB) : Decidable (ValueOk s) := inferInstanceAs (Decidable (_ ∧ _))

/-- A search comes to its key, and a write clears the tombstone of its key. -/
def StepOk (s : TributaryDB) : TributaryEvent → Prop
  | .find key | .removeKey key _ => s.cursor.FindOk key
  | .value _ => ValueOk s
  | _ => True

instance (s : TributaryDB) (e : TributaryEvent) : Decidable (StepOk s e) :=
  match e with
  | .find _ | .removeKey _ _ => inferInstanceAs (Decidable (MapCursor.FindOk _ _))
  | .value _ => inferInstanceAs (Decidable (ValueOk _))
  | .startTransaction | .remove _ | .commit | .rollback | .createCursor | .resetInPlace =>
    inferInstanceAs (Decidable True)

/-- Every step of a run meets the condition in the state it finds. -/
def RunOk (t : TributaryTrace) : List TributaryEvent → Prop
  | [] => True
  | e :: es => StepOk t.db e ∧ ((t.step e).elim True fun t' => RunOk t' es)

instance runOkDecidable : (t : TributaryTrace) → (es : List TributaryEvent) → Decidable (t.RunOk es)
  | _, [] => inferInstanceAs (Decidable True)
  | t, e :: es =>
    have : Decidable ((t.step e).elim True fun t' => RunOk t' es) :=
      match t.step e with
      | none => inferInstanceAs (Decidable True)
      | some t' => runOkDecidable t' es
    inferInstanceAs (Decidable (_ ∧ _))

/-- A key is deleted if the last operation on it is a removal, it is in the data trie with the value
of the last operation otherwise. -/
def Records (tries : Tries) (ops : List Operation) : Prop :=
  ∀ k, (tries.isDeleted k = true ↔ Operation.last ops k = some none) ∧
    ∀ v, lookup tries.data k = some v ↔ Operation.last ops k = some (some v)

/-- Merging the tributary into a main map makes the operations in their order. -/
def MergesTo (tries : Tries) (ops : List Operation) : Prop :=
  ∀ main : List (Key × Value), Ascending main →
    Confluence.mergeData (Confluence.applyDeletions main tries.deleted) tries.data =
      ops.foldl Operation.apply main

section Records

variable {w : Tries} {ops : List Operation} {k : Key} {v : Value}

theorem records_empty : Records .empty [] := by
  intro k
  exact ⟨by simp [Tries.empty, Tries.isDeleted, Operation.last], by simp [Tries.empty, Operation.last]⟩

theorem Records.put (h : Records w ops) (k : Key) (v : Value) :
    Records (w.put k v) (ops ++ [(k, some v)]) := by
  intro k'
  rw [Tries.isDeleted_put, Tries.lookup_put, Operation.last_concat]
  by_cases hk : k' = k
  . simp [hk]
  . simpa [hk] using h k'

theorem Records.delete (h : Records w ops) (k : Key) :
    Records (w.delete k) (ops ++ [(k, none)]) := by
  intro k'
  rw [Tries.isDeleted_delete, Tries.lookup_delete, Operation.last_concat]
  by_cases hk : k' = k
  . simp [hk]
  . simpa [hk] using h k'

theorem Records.not_both (h : Records w ops) (k : Key) :
    ¬(w.isDeleted k = true ∧ w.found k = true) := by
  rintro ⟨hdel, hfound⟩
  obtain ⟨v, hv⟩ := Option.isSome_iff_exists.mp hfound
  have hlast := ((h k).1.mp hdel).symm.trans (((h k).2 v).mp hv)
  cases hlast

theorem ascending_merge {main deleted data : List (Key × Value)} (h : Ascending main) :
    Ascending (Confluence.mergeData (Confluence.applyDeletions main deleted) data) := by
  have hdel : Ascending (Confluence.applyDeletions main deleted) := by
    unfold Confluence.applyDeletions
    induction deleted generalizing main with
    | nil => exact h
    | cons e deleted ih =>
      rw [List.foldl_cons]
      refine ih ?_
      split
      . exact ascending_erase h
      . exact h
  unfold Confluence.mergeData
  generalize Confluence.applyDeletions main deleted = m at hdel
  induction data generalizing m with
  | nil => exact hdel
  | cons e data ih => exact ih _ (ascending_insert hdel)

/-- Two ascending lists with the same values for all keys. -/
theorem eq_of_lookup {m m' : List (Key × Value)} (h : Ascending m) (h' : Ascending m')
    (heq : ∀ k, lookup m k = lookup m' k) : m = m' := by
  refine Ascending.ext h h' fun e => ?_
  rw [← lookup_eq_some_iff h, ← lookup_eq_some_iff h', heq]

theorem Records.mergesTo (h : Records w ops) (hwf : w.WF) : MergesTo w ops := by
  intro main hmain
  refine eq_of_lookup (ascending_merge hmain) (Operation.ascending_foldl_apply hmain ops) ?_
  intro k
  rw [Confluence.lookup_merged hwf, Operation.lookup_foldl_apply]
  cases hlast : Operation.last ops k with
  | none =>
    rw [if_neg]
    . rfl
    rintro (hfound | hdel)
    . obtain ⟨v, hv⟩ := Option.isSome_iff_exists.mp hfound
      rw [((h k).2 v).mp hv] at hlast
      cases hlast
    . rw [(h k).1.mp hdel] at hlast
      cases hlast
  | some op =>
    cases op with
    | none =>
      have hdel := (h k).1.mpr hlast
      have hholds : w.Holds k := Or.inr hdel
      rw [if_pos hholds, hwf.disjoint k hdel]
      rfl
    | some v =>
      have hv := ((h k).2 v).mpr hlast
      have hholds : w.Holds k := Or.inl (by simp [Tries.found, hv])
      rw [if_pos hholds, hv]
      rfl

end Records

/-- What the tries say in every state of a run. -/
structure Inv (t : TributaryTrace) : Prop where
  committedWF : t.db.committed.WF
  committed : Records t.db.committed t.committed
  wf : t.db.tries.WF
  operations : Records t.db.tries t.operations
  sound : t.db.cursor.Sound t.db.tries.data
  closed : t.db.active = none → t.operations = t.committed

theorem inv_create : create.Inv :=
  ⟨Tries.wf_empty, records_empty, Tries.wf_empty, records_empty, MapCursor.sound_init _, fun _ => rfl⟩

section Steps

variable {t : TributaryTrace} (h : t.Inv)

include h

/-- A write in the open transaction. -/
theorem Inv.write {r : Tries × MapCursor} {ops : List Operation} (hwf : r.1.WF)
    (hrecords : Records r.1 ops) (hsound : r.2.Sound r.1.data) :
    Inv ⟨t.db.write r, t.committed, ops⟩ :=
  ⟨h.committedWF, h.committed, hwf, hrecords, hsound, by simp [TributaryDB.write]⟩

/-- The event is not an operation on the tries. -/
theorem Inv.keep : Inv ⟨t.db, t.committed, t.operations ++ []⟩ := by
  rw [List.append_nil]
  exact h

/-- A write that clears the right tombstone is a write, or it throws. -/
theorem Inv.value_eq (v : Value) (hok : ValueOk t.db) :
    t.db.value v = some (t.db.write (if Nowhere t.db then (t.db.tries, t.db.cursor)
      else (t.db.tries.put t.db.cursor.key v, ⟨some t.db.cursor.key, t.db.cursor.key, []⟩))) := by
  have hidle : ¬(t.db.active = none ∧ t.db.committed.isDeleted t.db.cursor.currentKey = true) := by
    rintro ⟨hactive, hdel⟩
    have hno := hok.1 (Or.inl hactive)
    rw [TributaryDB.tries, hactive, Option.getD_none, hdel] at hno
    cases hno
  rw [TributaryDB.value, if_neg hidle]
  by_cases hthrows : Nowhere t.db
  . -- the tombstone has been looked for, too
    have hself : t.db.tries.removeTombstone t.db.cursor.currentKey = t.db.tries := by
      rw [Tries.removeTombstone, Tries.erase_of_not_isDeleted h.wf (hok.1 (Or.inr hthrows))]
    rw [if_pos hthrows, Tries.value, MapCursor.value, hthrows.1]
    simp only [hthrows.2, ne_eq, not_false_eq_true, ↓reduceIte, Option.map_some, hself]
  . obtain ⟨hnew, hclears⟩ := hok.2 hthrows
    have htarget : t.db.tries.data = [] ∧ t.db.cursor.currentKey = [] ∨
        t.db.cursor.target = some t.db.cursor.key := by
      by_cases hnil : t.db.tries.data = []
      . exact Or.inl ⟨hnil, hnew hnil⟩
      . right
        cases hk : t.db.cursor.target with
        | none => exact absurd ⟨hk, hnil⟩ hthrows
        | some k => rw [h.sound.target k hk]
    rw [if_neg hthrows, Tries.value_eq_put h.wf v h.sound rfl htarget hclears, Option.map_some]

theorem Inv.value {v : Value} {db : TributaryDB} (hs : t.db.value v = some db)
    (hok : ValueOk t.db) : (t.next db (.value v)).Inv := by
  rw [h.value_eq v hok, Option.some.injEq] at hs
  rw [← hs]
  simp only [next, operation]
  by_cases hthrows : Nowhere t.db
  . have hcond : t.db.cursor.target = none ∧ t.db.tries.data ≠ [] := hthrows
    rw [if_pos hthrows, if_pos hcond, List.append_nil]
    exact h.write h.wf h.operations h.sound
  . have hcond : ¬(t.db.cursor.target = none ∧ t.db.tries.data ≠ []) := hthrows
    rw [if_neg hthrows, if_neg hcond]
    refine h.write (h.wf.put _ v) (h.operations.put _ v) (MapCursor.sound_at ?_)
    intro hnil
    have := Tries.lookup_put t.db.tries t.db.cursor.key v t.db.cursor.key
    rw [hnil] at this
    simp at this

theorem Inv.remove {next : Option Key} {db : TributaryDB} (hs : t.db.remove next = some db) :
    (t.next db (.remove next)).Inv := by
  unfold TributaryDB.remove at hs
  simp only [TributaryTrace.next, operation]
  split at hs
  next hvalid =>
    rw [Option.map_eq_some_iff] at hs
    obtain ⟨r, hr, rfl⟩ := hs
    obtain ⟨hdelete, hsound⟩ := Tries.remove_eq_delete h.sound hvalid hr
    have hkey : t.db.cursor.key = t.db.cursor.currentKey := by
      rw [MapCursor.key, h.sound.valid hvalid, List.append_nil]
    rw [if_pos hvalid, hkey]
    refine h.write ?_ ?_ hsound
    . rw [hdelete]
      exact h.wf.delete _
    . rw [hdelete]
      exact h.operations.delete _
  next hvalid =>
    rw [if_neg hvalid, ← Option.some.inj hs]
    exact h.keep

theorem Inv.removeKey {key : Key} {next : Option Key} {db : TributaryDB}
    (hs : t.db.removeKey key next = some db) (hok : t.db.cursor.FindOk key) :
    (t.next db (.removeKey key next)).Inv := by
  unfold TributaryDB.removeKey at hs
  simp only [TributaryTrace.next, operation]
  split at hs
  next hlen =>
    rw [if_pos hlen, ← Option.some.inj hs]
    exact h.keep
  next hlen =>
    split at hs
    . cases hs
    . rw [Option.map_eq_some_iff] at hs
      obtain ⟨r, hr, rfl⟩ := hs
      obtain ⟨hdelete, hsound⟩ :=
        Tries.removeKey_eq_delete h.wf h.sound (Nat.le_of_not_lt hlen) hok hr
      rw [if_neg hlen]
      refine h.write ?_ ?_ hsound
      . rw [hdelete]
        exact h.wf.delete key
      . rw [hdelete]
        exact h.operations.delete key

theorem Inv.rollback : Inv ⟨t.db.rollback, t.committed, t.committed⟩ := by
  unfold TributaryDB.rollback
  split
  next hactive =>
    have hops := h.closed hactive
    refine ⟨h.committedWF, h.committed, h.wf, ?_, h.sound, fun _ => rfl⟩
    rw [← hops]
    exact h.operations
  next => exact ⟨h.committedWF, h.committed, h.committedWF, h.committed, MapCursor.sound_refind _ _, fun _ => rfl⟩

/-- What one step leaves as it is. -/
theorem Inv.step {e : TributaryEvent} {t' : TributaryTrace} (hs : t.step e = some t')
    (hok : StepOk t.db e) : t'.Inv := by
  unfold TributaryTrace.step at hs
  rw [Option.map_eq_some_iff] at hs
  obtain ⟨db, hs, rfl⟩ := hs
  cases e with
  | startTransaction =>
    rw [← Option.some.inj hs]
    simp only [next, operation, List.append_nil]
    exact ⟨h.committedWF, h.committed, h.wf, h.operations, h.sound, by simp⟩
  | find key =>
    rw [← Option.some.inj hs]
    simp only [next, operation, List.append_nil]
    exact ⟨h.committedWF, h.committed, h.wf, h.operations, h.sound.find hok, h.closed⟩
  | value v => exact h.value hs hok
  | remove next => exact h.remove hs
  | removeKey key next => exact h.removeKey hs hok
  | commit =>
    rw [← Option.some.inj hs]
    exact ⟨h.wf, h.operations, h.wf, h.operations, h.sound, fun _ => rfl⟩
  | rollback =>
    rw [← Option.some.inj hs]
    exact h.rollback
  | createCursor =>
    rw [← Option.some.inj hs]
    exact ⟨h.committedWF, h.committed, h.committedWF, h.committed, MapCursor.sound_init _, fun _ => rfl⟩
  | resetInPlace =>
    rw [next]
    split
    . exact inv_create
    . exact h

end Steps

theorem Inv.run {es : List TributaryEvent} {t t' : TributaryTrace} (h : t.Inv)
    (hrun : t.run es = some t') (hok : t.RunOk es) : t'.Inv := by
  induction es generalizing t with
  | nil =>
    rw [TributaryTrace.run, Option.some.injEq] at hrun
    rw [← hrun]
    exact h
  | cons e es ih =>
    rw [TributaryTrace.run, Option.bind_eq_some_iff] at hrun
    obtain ⟨u, hstep, hrun⟩ := hrun
    obtain ⟨hfirst, hrest⟩ := hok
    rw [hstep] at hrest
    exact ih (h.step hstep hfirst) hrun hrest

/-- Two keys are written, one is removed, a rollback takes back the second removal. -/
def history : List TributaryEvent :=
  [.startTransaction, .find [0x61], .value ⟨false, [1]⟩, .find [0x62], .value ⟨false, [2]⟩,
    .removeKey [0x61] (some [0x62]), .commit, .startTransaction, .removeKey [0x62] none, .rollback]

/-- The search for `ad` ends behind `a`, so that `value` clears the tombstone of `a`. -/
def lost : List TributaryEvent :=
  [.startTransaction, .find [0x61, 0x62], .value ⟨false, [1]⟩, .find [0x61, 0x63],
    .value ⟨false, [2]⟩, .removeKey [0x61] none, .find [0x61, 0x64], .value ⟨false, [3]⟩]

/-- The tombstone of a key that is written again stays: `x` is in both tries. -/
example : ((create.run [.startTransaction, .removeKey [0x78] none, .find [0x78],
    .value ⟨false, [1]⟩]).map fun t => (t.db.tries.isDeleted [0x78], t.db.tries.found [0x78])) =
      some (true, true) := by
  decide +kernel

end TributaryTrace
end Leaves
