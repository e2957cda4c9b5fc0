import Leaves.Db.Navigation
import Leaves.Trie.Matched

/-!
The cursor of a database whose trie is taken for the map it stands for: what `find` leaves in
`current_key` and `rest_key`, and where `value` and `remove` change the map.
-/

namespace Leaves

open OrdMap

structure MapCursor where
  /-- the key the stack stands for, `none` for an empty stack -/
  target : Option Key
  currentKey : Key
  restKey : Key
  deriving DecidableEq, Repr

namespace MapCursor

/-- A new cursor. -/
def init : MapCursor := ⟨none, [], []⟩

/-- The key that has been searched for. -/
def key (c : MapCursor) : Key := c.currentKey ++ c.restKey

section Map

variable (es : List (Key × Value)) (c : MapCursor)

def isValid : Bool :=
  match c.target with
  | none => false
  | some k => (lookup es k).isSome

/-- `find`: a key that is too big is refused, `keep_stack` may return early. -/
def find (key : Key) : MapCursor :=
  if MAX_KEY_SIZE < key.length then c
  else if c.target.isSome = true ∧ key = c.currentKey then { c with restKey := [] }
  else if es = [] then { c with target := none, restKey := key }
  else ⟨some key, matched es key, key.drop (matched es key).length⟩

/-- `value(v)`. Without a stack there is only room for the very first value, otherwise the exception
`NoValidPosition` leaves everything as it is. Where the stack does not lead to `key` the result is
not known. -/
def value (v : Value) : Option (List (Key × Value) × MapCursor) :=
  match c.target with
  | none =>
    if es ≠ [] then some (es, c)
    else if c.currentKey = [] then some ([(c.restKey, v)], ⟨some c.restKey, c.restKey, []⟩)
    else none
  | some k =>
    if (lookup es k).isSome then some (insert es k v, c)
    else if c.key = k then some (insert es k v, ⟨some k, k, []⟩)
    else none

/-- `remove()` of a valid cursor, which comes to rest at another key or nowhere. -/
def remove (next : Option Key) : Option (List (Key × Value) × MapCursor) :=
  match c.target with
  | none => none
  | some k =>
    match next with
    | none => some (erase es k, init)
    | some k' =>
      if (lookup (erase es k) k').isSome then some (erase es k, ⟨some k', k', []⟩) else none

/-- The end of `rollback`: the stack is cleared and the key is searched for again. -/
def refind : MapCursor := find es { c with target := none } c.currentKey

end Map

/-- `keep_stack` does not come to a key that an earlier miss has left in `current_key`. -/
def FindOk (c : MapCursor) (key : Key) : Prop :=
  c.target = none ∨ key ≠ c.currentKey ∨ c.restKey = []

instance (c : MapCursor) (key : Key) : Decidable (c.FindOk key) :=
  inferInstanceAs (Decidable (_ ∨ _))

/-- The stack of the cursor leads to its key. -/
structure Sound (es : List (Key × Value)) (c : MapCursor) : Prop where
  empty : es = [] → c.target = none
  target : ∀ k, c.target = some k → c.key = k
  valid : c.isValid es = true → c.restKey = []

theorem sound_init (es : List (Key × Value)) : init.Sound es :=
  ⟨fun _ => rfl, by simp [init], fun _ => rfl⟩

theorem matched_append_drop (es : List (Key × Value)) (key : Key) :
    matched es key ++ key.drop (matched es key).length = key := by
  rw [matched, List.length_take, Nat.min_eq_left matchedLen_le, List.take_append_drop]

section Sound

variable {es : List (Key × Value)} {c : MapCursor}

theorem find_of_gt {key : Key} (hlen : ¬ key.length ≤ MAX_KEY_SIZE) : c.find es key = c := by
  rw [find, if_pos (Nat.lt_of_not_le hlen)]

theorem Sound.find (h : c.Sound es) {key : Key} (hok : c.FindOk key) :
    (c.find es key).Sound es := by
  unfold MapCursor.find
  split
  . exact h
  . split
    next hkeep =>
      have hrest : c.restKey = [] := by
        rcases hok with hok | hok | hok
        . rw [hok] at hkeep
          cases hkeep.1
        . exact absurd hkeep.2 hok
        . exact hok
      have hself : { c with restKey := [] } = c := by rw [← hrest]
      rw [hself]
      exact h
    next =>
      split
      next hnil => exact ⟨fun _ => rfl, by simp, by simp [isValid]⟩
      next hne =>
        refine ⟨fun hnil => absurd hnil hne, ?_, ?_⟩
        . rintro k ⟨rfl⟩
          exact matched_append_drop es _
        . intro hvalid
          obtain ⟨v, hv⟩ := Option.isSome_iff_exists.mp hvalid
          obtain ⟨e, he, hek⟩ : ∃ e ∈ es, e.1 = key := by
            by_contra hno
            rw [lookup_eq_none_iff.mpr fun e he hek => hno ⟨e, he, hek⟩] at hv
            cases hv
          have hm : matched es key = key := hek ▸ matched_of_mem he
          simp [hm]

theorem Sound.target_find (h : c.Sound es) {key : Key} (hlen : key.length ≤ MAX_KEY_SIZE)
    (hok : c.FindOk key) (hne : es ≠ []) : (c.find es key).target = some key := by
  unfold MapCursor.find
  rw [if_neg (Nat.not_lt_of_le hlen)]
  split
  next hkeep =>
    obtain ⟨k, hk⟩ := Option.isSome_iff_exists.mp hkeep.1
    have hrest : c.restKey = [] := by
      rcases hok with hok | hok | hok
      . rw [hok] at hk
        cases hk
      . exact absurd hkeep.2 hok
      . exact hok
    have hkey := h.target k hk
    rw [MapCursor.key, hrest, List.append_nil] at hkey
    simp only
    rw [hk, ← hkey, hkeep.2]
  next => rfl

theorem key_find {key : Key} (hlen : key.length ≤ MAX_KEY_SIZE)
    (hnew : es = [] → c.currentKey = []) : (c.find es key).key = key := by
  unfold MapCursor.find
  rw [if_neg (Nat.not_lt_of_le hlen)]
  split
  next hkeep => simp [MapCursor.key, hkeep.2]
  next =>
    split
    next hnil => simp [MapCursor.key, hnew hnil]
    next => exact matched_append_drop es key

theorem Sound.currentKey_find_nil (h : c.Sound es) (hnil : es = []) (key : Key) :
    (c.find es key).currentKey = c.currentKey := by
  unfold MapCursor.find
  rw [h.empty hnil, if_pos hnil]
  simp only [Option.isSome_none, Bool.false_eq_true, false_and, ↓reduceIte]
  split
  . rfl
  . rfl

/-- The cursor is on a key of the map. -/
theorem sound_at {k : Key} (hne : es ≠ []) : Sound es ⟨some k, k, []⟩ := by
  refine ⟨fun hnil => absurd hnil hne, ?_, fun _ => rfl⟩
  rintro _ ⟨rfl⟩
  exact List.append_nil k

/-- A second search for the key. -/
theorem Sound.findOk_find (h : c.Sound es) {key : Key} (hlen : key.length ≤ MAX_KEY_SIZE)
    (hok : c.FindOk key) : (c.find es key).FindOk key := by
  by_cases hnil : es = []
  . exact Or.inl ((h.find hok).empty hnil)
  . by_cases hcur : key = (c.find es key).currentKey
    . right
      right
      have hkey := key_find (c := c) hlen (fun h => absurd h hnil)
      rw [MapCursor.key, ← hcur] at hkey
      exact List.append_right_eq_self.mp hkey
    . exact Or.inr (Or.inl hcur)

/-- Where the stack leads to the key, `value` writes it. -/
theorem Sound.value_eq_insert (h : c.Sound es) {k : Key} (v : Value) (hkey : c.key = k)
    (htarget : es = [] ∧ c.currentKey = [] ∨ c.target = some k) :
    c.value es v = some (insert es k v, ⟨some k, k, []⟩) := by
  rw [value]
  rcases htarget with ⟨hnil, hcur⟩ | htarget
  . have hrest : c.restKey = k := by
      rw [← hkey, MapCursor.key, hcur, List.nil_append]
    rw [h.empty hnil]
    simp only [hnil, ne_eq, not_true_eq_false, ↓reduceIte, hcur, hrest]
    rfl
  . rw [htarget]
    simp only [hkey, ↓reduceIte]
    split
    next hfound =>
      have hvalid : c.isValid es = true := by
        rw [isValid, htarget]
        exact hfound
      have hrest := h.valid hvalid
      have hcur : c.currentKey = k := by
        rw [← hkey, MapCursor.key, hrest, List.append_nil]
      have hself : c = ⟨some k, k, []⟩ := by
        cases c
        rw [MapCursor.mk.injEq]
        exact ⟨htarget, hcur, hrest⟩
      rw [← hself]
    . rfl

/-- The key has been searched for before it is written. -/
theorem Sound.find_value (h : c.Sound es) {key : Key} (hlen : key.length ≤ MAX_KEY_SIZE)
    (hok : c.FindOk key) (hnew : es = [] → c.currentKey = []) (v : Value) :
    (c.find es key).value es v = some (insert es key v, ⟨some key, key, []⟩) := by
  apply (h.find hok).value_eq_insert v (key_find hlen hnew)
  by_cases hnil : es = []
  . rw [h.currentKey_find_nil hnil]
    exact Or.inl ⟨hnil, hnew hnil⟩
  . exact Or.inr (h.target_find hlen hok hnil)

/-- A valid cursor is at a key of the trie. -/
theorem Sound.valid_target (h : c.Sound es) (hvalid : c.isValid es = true) :
    c.target = some c.currentKey := by
  have hrest := h.valid hvalid
  cases htarget : c.target with
  | none =>
    rw [isValid, htarget] at hvalid
    cases hvalid
  | some k =>
    have hkey := h.target k htarget
    rw [MapCursor.key, hrest, List.append_nil] at hkey
    rw [hkey]

/-- A cursor that has removed a key is on another one, or nowhere. -/
theorem sound_of_remove {next : Option Key} {r : List (Key × Value) × MapCursor}
    (hr : c.remove es next = some r) : r.2.Sound r.1 := by
  unfold MapCursor.remove at hr
  split at hr
  . cases hr
  . split at hr
    . rw [← Option.some.inj hr]
      exact sound_init _
    next k _ k' =>
      split at hr
      next hfound =>
        rw [← Option.some.inj hr]
        refine ⟨?_, ?_, fun _ => rfl⟩
        . intro hnil
          simp only at hnil
          rw [hnil] at hfound
          cases hfound
        . rintro _ ⟨rfl⟩
          exact List.append_nil _
      . cases hr

theorem data_of_remove {next : Option Key} {k : Key} {r : List (Key × Value) × MapCursor}
    (htarget : c.target = some k) (hr : c.remove es next = some r) : r.1 = erase es k := by
  unfold MapCursor.remove at hr
  rw [htarget] at hr
  simp only at hr
  split at hr
  . rw [← Option.some.inj hr]
  . split at hr
    . rw [← Option.some.inj hr]
    . cases hr

/-- No key of the trie and none that the cursor has been given is too big. -/
def ShortKeys (es : List (Key × Value)) : Prop := ∀ e ∈ es, e.1.length ≤ MAX_KEY_SIZE

structure Short (c : MapCursor) : Prop where
  target : ∀ k, c.target = some k → k.length ≤ MAX_KEY_SIZE
  restKey : c.restKey.length ≤ MAX_KEY_SIZE

theorem short_init : init.Short := ⟨by simp [init], by simp [init]⟩

theorem short_at {k : Key} (hk : k.length ≤ MAX_KEY_SIZE) (key : Key) : Short ⟨some k, key, []⟩ :=
  ⟨by rintro _ ⟨rfl⟩; exact hk, Nat.zero_le _⟩

theorem Short.find (h : c.Short) (key : Key) : (c.find es key).Short := by
  unfold MapCursor.find
  split
  . exact h
  next hlen =>
    have hkey := Nat.le_of_not_lt hlen
    split
    . exact ⟨h.target, Nat.zero_le _⟩
    . split
      . exact ⟨by simp, hkey⟩
      . refine ⟨?_, ?_⟩
        . rintro _ ⟨rfl⟩
          exact hkey
        . rw [List.length_drop]
          omega

theorem ShortKeys.insert (h : ShortKeys es) {k : Key} (hk : k.length ≤ MAX_KEY_SIZE) (v : Value) :
    ShortKeys (insert es k v) := by
  intro e he
  rw [OrdMap.insert, List.mem_append, List.mem_cons] at he
  rcases he with he | rfl | he
  . exact h e (List.mem_of_mem_filter he)
  . exact hk
  . exact h e (List.mem_of_mem_filter he)

theorem ShortKeys.erase (h : ShortKeys es) (k : Key) : ShortKeys (erase es k) := by
  intro e he
  rw [OrdMap.erase, List.mem_append] at he
  rcases he with he | he
  . exact h e (List.mem_of_mem_filter he)
  . exact h e (List.mem_of_mem_filter he)

theorem ShortKeys.lookup (h : ShortKeys es) {k : Key} (hk : (lookup es k).isSome = true) :
    k.length ≤ MAX_KEY_SIZE := by
  by_contra hlen
  have hnone : OrdMap.lookup es k = none :=
    lookup_eq_none_iff.mpr fun e he heq => hlen (heq ▸ h e he)
  rw [hnone] at hk
  cases hk

theorem Short.remove (h : ShortKeys es) {next : Option Key} {r : List (Key × Value) × MapCursor}
    (hr : c.remove es next = some r) : ShortKeys r.1 ∧ r.2.Short := by
  unfold MapCursor.remove at hr
  split at hr
  . cases hr
  next k _ =>
    split at hr
    . rw [← Option.some.inj hr]
      exact ⟨h.erase k, short_init⟩
    next k' =>
      split at hr
      next hfound =>
        rw [← Option.some.inj hr]
        exact ⟨h.erase k, short_at ((h.erase k).lookup hfound) k'⟩
      . cases hr

theorem sound_refind (es : List (Key × Value)) (c : MapCursor) : (c.refind es).Sound es :=
  Sound.find ⟨fun _ => rfl, by simp, by simp [isValid]⟩ (Or.inl rfl)

end Sound

/-- The cursor of a trie and the cursor of the map that the trie stands for. -/
structure Simulates (m : Trie) (c : Cursor) (mc : MapCursor) : Prop where
  stands : c.Stands m mc.target
  empty : m = none → mc.target = none
  currentKey : c.currentKey = mc.currentKey
  restKey : c.restKey = mc.restKey

theorem simulates_init (m : Trie) : Simulates m (Cursor.init m.root) init :=
  ⟨Cursor.stands_init m, fun _ => rfl, rfl, rfl⟩

section Simulates

variable {rd : Addr → Node} {m : Trie} {c : Cursor} {mc : MapCursor}

theorem Simulates.isValid (h : Simulates m c mc) (hm : m.Valid rd) :
    c.isValid rd = mc.isValid m.entries := by
  rw [(h.stands.shows hm).1, entryAt, MapCursor.isValid]
  cases mc.target with
  | none => rfl
  | some k => rw [Option.bind_some, Option.isSome_map]

/-- A search in the trie finds what a search in the map finds. -/
theorem Simulates.find (h : Simulates m c mc) (hm : m.Valid rd) (hshallow : m.Shallow) {key : Key}
    (hok : c.FindOk key) : Simulates m (c.move rd (.find key)) (mc.find m.entries key) := by
  by_cases hlen : key.length ≤ MAX_KEY_SIZE
  . have hstands := h.stands.find hm hshallow hlen hok
    match m with
    | none =>
      have hnil := h.stands.off (Or.inl rfl)
      have htarget := h.empty rfl
      have hroot : c.root = 0 := h.stands.root
      have hfind : c.find rd key = some { c with restKey := key } := by
        rw [Cursor.find_of_le hlen, if_pos hnil, Cursor.findRest, if_pos hnil, if_pos hroot]
      rw [MapCursor.find, if_neg (Nat.not_lt_of_le hlen), htarget]
      simp only [Option.isSome_none, Bool.false_eq_true, false_and, ↓reduceIte, Trie.entries]
      rw [Cursor.move, hfind]
      exact ⟨⟨h.stands.root, by simp, fun _ => hnil⟩, fun _ => rfl, h.currentKey, rfl⟩
    | some t =>
      have hwf := hm.wf t rfl
      have hne : Trie.entries (some t) ≠ [] := Tree.entries_ne_nil hwf
      rw [MapCursor.find, if_neg (Nat.not_lt_of_le hlen)]
      split
      next hkeep =>
        obtain ⟨K, hK⟩ := Option.isSome_iff_exists.mp hkeep.1
        have hstop := h.stands.stack t rfl K hK
        obtain ⟨idx, hstack⟩ := hstop.stack
        have hrest : c.restKey = [] := by
          rcases hok with hok | hok | hok
          . rw [hstack] at hok
            cases hok
          . exact absurd (hkeep.2.trans h.currentKey.symm) hok
          . exact hok
        have hcur : c.currentKey = key := h.currentKey.trans hkeep.2.symm
        have hkept : ({ c with restKey := key } : Cursor).keepStack = (true, c) := by
          rw [Cursor.keepStack]
          simp only [hcur, getPrefix_self, and_self, ↓reduceIte, List.drop_length]
          rw [← hcur, ← hrest]
        have hself : c.move rd (.find key) = c := by
          rw [Cursor.move, Cursor.find_of_le hlen, if_neg (by simp [hstack]), hkept]
          rfl
        have hmc : { mc with restKey := [] } = mc := by rw [← hrest, h.restKey]
        rw [hself, hmc]
        exact h
      next =>
        have hstop := hstands.stack t rfl key rfl
        have hcur : (c.move rd (.find key)).currentKey = matched t.entries key := by
          rw [hstop.currentKey]
          exact Tree.search_matched hwf key
        refine ⟨hstands, by simp, hcur, ?_⟩
        have hkey := (Tree.search_root_ends hwf key).key
        rw [Stop.suffix, ← List.append_assoc, Tree.search_matched hwf key] at hkey
        have hdrop := congrArg (List.drop (matched t.entries key).length) hkey
        rw [List.drop_left] at hdrop
        rw [hstop.restKey]
        exact hdrop.symm
  . rw [find_of_gt hlen, Cursor.move, Cursor.find, if_pos (Nat.lt_of_not_le hlen)]
    exact h

end Simulates

end MapCursor
end Leaves
