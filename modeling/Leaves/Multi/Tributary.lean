import Leaves.Lib.StableSort
import Leaves.Db.MapCursor

/-!
The tributaries of `multi/_tributary.hpp`: a database for the changes of one producer, with a trie
of values and a trie of the deleted keys. A database is the map it holds.
-/

namespace Leaves

/-- The state of the slot of a tributary. -/
inductive SlotState where
  /-- no data, not owned -/
  | empty
  /-- claimed for the first transaction, without a committed snapshot -/
  | firstWriting
  | writing
  | merging
  /-- merged into the main database, to be recycled -/
  | merged
  /-- owned by a cursor between two transactions -/
  | attached
  deriving DecidableEq, Repr

namespace SlotState

/-- `_ensure_sources` takes a slot in these states as a source. -/
def readable : SlotState → Bool
  | empty | firstWriting | merged => false
  | writing | merging | attached => true

end SlotState

/-- The two tries of `_TributaryTransaction`. -/
structure Tries where
  data : List (Key × Value)
  deleted : List (Key × Value)
  deriving DecidableEq, Repr, Inhabited

namespace Tries

open OrdMap

def empty : Tries := ⟨[], []⟩

def found (t : Tries) (k : Key) : Bool := (lookup t.data k).isSome

def isDeleted (t : Tries) (k : Key) : Bool := (lookup t.deleted k).isSome

/-- `_insert_tombstone` -/
def insertTombstone (t : Tries) (k : Key) : Tries := { t with deleted := insert t.deleted k ⟨false, []⟩ }

/-- `_remove_tombstone` -/
def removeTombstone (t : Tries) (k : Key) : Tries := { t with deleted := erase t.deleted k }

/-- `value(v)`: the tombstone of `current_key` is cleared before the write. -/
def value (t : Tries) (c : MapCursor) (v : Value) : Option (Tries × MapCursor) :=
  (c.value t.data v).map fun r => ({ t.removeTombstone c.currentKey with data := r.1 }, r.2)

/-- `remove()`, a cursor that is not valid throws. -/
def remove (t : Tries) (c : MapCursor) (next : Option Key) : Option (Tries × MapCursor) :=
  if c.isValid t.data then
    (c.remove t.data next).map fun r => ({ t.insertTombstone c.currentKey with data := r.1 }, r.2)
  else some (t, c)

/-- `remove(key)`: there is a tombstone, whether the key is in the data trie or not. -/
def removeKey (t : Tries) (c : MapCursor) (key : Key) (next : Option Key) :
    Option (Tries × MapCursor) :=
  if MAX_KEY_SIZE < key.length then some (t, c)
  else
    let c := c.find t.data key
    if c.isValid t.data ∧ key = c.currentKey then
      (c.remove t.data next).map fun r => ({ t.insertTombstone key with data := r.1 }, r.2)
    else some (t.insertTombstone key, c)

/-- What a write is for. -/
def put (t : Tries) (k : Key) (v : Value) : Tries :=
  ⟨insert t.data k v, erase t.deleted k⟩

/-- What a removal is for. -/
def delete (t : Tries) (k : Key) : Tries :=
  ⟨erase t.data k, insert t.deleted k ⟨false, []⟩⟩

/-- The tries have something to say about a key. -/
def Holds (t : Tries) (k : Key) : Prop := t.found k = true ∨ t.isDeleted k = true

instance (t : Tries) (k : Key) : Decidable (t.Holds k) := inferInstanceAs (Decidable (_ ∨ _))

theorem holds_put (t : Tries) (k : Key) (v : Value) (k' : Key) :
    (t.put k v).Holds k' ↔ k' = k ∨ t.Holds k' := by
  simp only [Holds, found, isDeleted, put, lookup_insert, lookup_erase]
  by_cases h : k' = k <;> simp [h]

theorem holds_delete (t : Tries) (k k' : Key) : (t.delete k).Holds k' ↔ k' = k ∨ t.Holds k' := by
  simp only [Holds, found, isDeleted, delete, lookup_insert, lookup_erase]
  by_cases h : k' = k <;> simp [h]

theorem lookup_put (t : Tries) (k : Key) (v : Value) (k' : Key) :
    lookup (t.put k v).data k' = if k' = k then some v else lookup t.data k' := by
  simp [put, lookup_insert]

theorem lookup_delete (t : Tries) (k k' : Key) :
    lookup (t.delete k).data k' = if k' = k then none else lookup t.data k' := by
  simp [delete, lookup_erase]

theorem isDeleted_put (t : Tries) (k : Key) (v : Value) (k' : Key) :
    (t.put k v).isDeleted k' = if k' = k then false else t.isDeleted k' := by
  rw [isDeleted, put, lookup_erase]
  split
  . rfl
  . rfl

theorem isDeleted_delete (t : Tries) (k k' : Key) :
    (t.delete k).isDeleted k' = if k' = k then true else t.isDeleted k' := by
  rw [isDeleted, delete, lookup_insert]
  split
  . rfl
  . rfl

/-- Both tries are tries, and no key is in both. -/
structure WF (t : Tries) : Prop where
  data : Ascending t.data
  deleted : Ascending t.deleted
  disjoint : ∀ k, t.isDeleted k = true → lookup t.data k = none

theorem wf_empty : empty.WF := ⟨by simp [empty], by simp [empty], by simp [empty, isDeleted]⟩

theorem WF.put {t : Tries} (h : t.WF) (k : Key) (v : Value) : (t.put k v).WF := by
  refine ⟨ascending_insert h.data, ascending_erase h.deleted, ?_⟩
  intro k' hk
  rw [isDeleted, Tries.put, lookup_erase] at hk
  rw [Tries.put, lookup_insert]
  split at hk
  . simp at hk
  next hne =>
    rw [if_neg hne]
    exact h.disjoint k' hk

theorem WF.delete {t : Tries} (h : t.WF) (k : Key) : (t.delete k).WF := by
  refine ⟨ascending_erase h.data, ascending_insert h.deleted, ?_⟩
  intro k' hk
  rw [isDeleted, Tries.delete, lookup_insert] at hk
  rw [Tries.delete, lookup_erase]
  split at hk
  next heq => rw [if_pos heq]
  next hne =>
    rw [if_neg hne]
    exact h.disjoint k' hk

/-- The write clears the tombstone of its key and no other one. -/
def Clears (t : Tries) (c : MapCursor) (k : Key) : Prop :=
  (t.isDeleted k = true → c.currentKey = k) ∧ (t.isDeleted c.currentKey = true → c.currentKey = k)

instance (t : Tries) (c : MapCursor) (k : Key) : Decidable (t.Clears c k) :=
  inferInstanceAs (Decidable (_ ∧ _))

section Writes

variable {t : Tries} {c : MapCursor}

theorem erase_of_not_isDeleted (h : t.WF) {k : Key} (hk : t.isDeleted k = false) :
    erase t.deleted k = t.deleted := by
  refine erase_of_lookup_eq_none h.deleted ?_
  rw [isDeleted] at hk
  simpa using hk

theorem Clears.erase_eq (h : t.WF) {k : Key} (hclears : t.Clears c k) :
    erase t.deleted c.currentKey = erase t.deleted k := by
  by_cases hk : c.currentKey = k
  . rw [hk]
  . have hcur : t.isDeleted c.currentKey = false :=
      Bool.eq_false_iff.mpr fun hdel => hk (hclears.2 hdel)
    have hkey : t.isDeleted k = false := Bool.eq_false_iff.mpr fun hdel => hk (hclears.1 hdel)
    rw [erase_of_not_isDeleted h hcur, erase_of_not_isDeleted h hkey]

/-- Where the stack leads to the key, `value` writes it. -/
theorem value_eq_put (h : t.WF) {k : Key} (v : Value) (hsound : c.Sound t.data)
    (hkey : c.key = k) (htarget : t.data = [] ∧ c.currentKey = [] ∨ c.target = some k)
    (hclears : t.Clears c k) : t.value c v = some (t.put k v, ⟨some k, k, []⟩) := by
  have herase := hclears.erase_eq h
  rw [value, hsound.value_eq_insert v hkey htarget, Option.map_some, removeTombstone, herase, put]

/-- `remove()` of a valid cursor. -/
theorem remove_eq_delete (hsound : c.Sound t.data) (hvalid : c.isValid t.data = true)
    {next : Option Key} {r : Tries × MapCursor} (hr : t.remove c next = some r) :
    r.1 = t.delete c.currentKey ∧ r.2.Sound r.1.data := by
  rw [remove, if_pos hvalid, Option.map_eq_some_iff] at hr
  obtain ⟨s, hs, rfl⟩ := hr
  have hdata := MapCursor.data_of_remove (hsound.valid_target hvalid) hs
  refine ⟨?_, MapCursor.sound_of_remove hs⟩
  rw [delete, ← hdata, insertTombstone]

/-- `remove(key)` -/
theorem removeKey_eq_delete (h : t.WF) (hsound : c.Sound t.data) {k : Key}
    (hlen : k.length ≤ MAX_KEY_SIZE) (hok : c.FindOk k) {next : Option Key}
    {r : Tries × MapCursor} (hr : t.removeKey c k next = some r) :
    r.1 = t.delete k ∧ r.2.Sound r.1.data := by
  have hfind := hsound.find hok
  rw [removeKey, if_neg (Nat.not_lt_of_le hlen)] at hr
  simp only at hr
  split at hr
  next hvalid =>
    rw [Option.map_eq_some_iff] at hr
    obtain ⟨s, hs, rfl⟩ := hr
    have htarget := hfind.valid_target hvalid.1
    rw [← hvalid.2] at htarget
    have hdata := MapCursor.data_of_remove htarget hs
    refine ⟨?_, MapCursor.sound_of_remove hs⟩
    rw [delete, ← hdata, insertTombstone]
  next hvalid =>
    rw [← Option.some.inj hr]
    refine ⟨?_, hfind⟩
    have hmiss : lookup t.data k = none := by
      by_contra hfound
      have hne : t.data ≠ [] := by
        intro hnil
        rw [hnil] at hfound
        exact hfound rfl
      have htarget := hsound.target_find hlen hok hne
      have hfound' : (c.find t.data k).isValid t.data = true := by
        rw [MapCursor.isValid, htarget]
        exact Option.isSome_iff_ne_none.mpr hfound
      have hcur := hfind.valid_target hfound'
      rw [htarget, Option.some.injEq] at hcur
      exact hvalid ⟨hfound', hcur⟩
    rw [delete, insertTombstone, erase_of_lookup_eq_none h.data hmiss]

end Writes

end Tries

/-- A slot with the committed state of its tributary. -/
structure Tributary where
  state : SlotState
  txnId : Nat
  tries : Tries
  writeCount : Nat
  deriving DecidableEq, Repr

namespace Tributary

/-- A new tributary, or one after `reset_in_place`. -/
def fresh (state : SlotState) : Tributary := ⟨state, 1, Tries.empty, 0⟩

end Tributary

/-- What a source has for a key. -/
structure Candidate where
  txnId : Nat
  value : Value
  isDeleted : Bool
  deriving DecidableEq, Repr, Inhabited

/-- The hooks of an aspect for merging. -/
structure MergeAspect where
  mayMergeDelete : Key → Bool
  mayMergeAdd : Key → Value → Bool
  mayMergeOverwrite : Key → Value → Value → Bool

/-- `DefaultAspect` -/
def MergeAspect.default : MergeAspect := ⟨fun _ => true, fun _ _ => true, fun _ _ _ => true⟩

namespace Candidate

/-- One round of the loop of `_resolve_candidates_for_key`. -/
def resolveStep (aspect : MergeAspect) (key : Key) (winner : Option Candidate) (c : Candidate) :
    Option Candidate :=
  if c.isDeleted then
    if aspect.mayMergeDelete key then none else winner
  else
    match winner with
    | none => if aspect.mayMergeAdd key c.value then some c else none
    | some w => if aspect.mayMergeOverwrite key w.value c.value then some c else some w

/-- `_resolve_candidates_for_key` -/
def resolve (aspect : MergeAspect) (key : Key) (candidates : List Candidate) : Option Candidate :=
  (StableSort.sort txnId candidates).foldl (resolveStep aspect key) none

/-- Without objections the latest candidate wins. -/
theorem resolve_default (key : Key) (candidates : List Candidate) :
    resolve .default key candidates =
      (StableSort.latest txnId candidates).bind fun c => if c.isDeleted then none else some c := by
  rw [← StableSort.getLast?_sort, resolve]
  rcases List.eq_nil_or_concat (StableSort.sort txnId candidates) with h | ⟨l, c, h⟩
  . rw [h]
    rfl
  . rw [List.concat_eq_append] at h
    rw [h, List.foldl_append, List.getLast?_concat]
    simp only [List.foldl_cons, List.foldl_nil, resolveStep, MergeAspect.default, Option.bind_some,
      ↓reduceIte]
    split
    . rfl
    . split <;> rfl

end Candidate
end Leaves
