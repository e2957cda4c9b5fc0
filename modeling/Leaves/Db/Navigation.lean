import Leaves.Db.Lemmas.Prev

/-!
A cursor that is only moved over a trie behaves like a cursor over the ordered map the trie stands
for.
-/

namespace Leaves
namespace Cursor

/-- One call on a cursor. A key that is too big is refused before the cursor has been changed. -/
def move (rd : Addr → Node) (c : Cursor) : OrdMap.Move Key → Cursor
  | .find key => (c.find rd key).getD c
  | .first => c.first rd
  | .last => c.last rd
  | .next => c.next rd
  | .prev => c.prev rd

def walk (rd : Addr → Node) (c : Cursor) (moves : List (OrdMap.Move Key)) : Cursor :=
  moves.foldl (move rd) c

/-- What a valid cursor shows: `key()` and `value()`. -/
def shown? (rd : Addr → Node) (c : Cursor) : Option (Key × Value) :=
  (c.leaf? rd).map (fun l => (c.currentKey, ⟨l.big, l.vdata⟩))

/-- The calls a cursor over the ordered map sees: keys that are too big are refused. -/
def accepted (moves : List (OrdMap.Move Key)) : List (OrdMap.Move Key) :=
  moves.filter fun
    | .find key => key.length ≤ MAX_KEY_SIZE
    | _ => true

/-- The call does not run into what an earlier one has left in the stack. -/
def MoveOk (rd : Addr → Node) (c : Cursor) : OrdMap.Move Key → Prop
  | .find key => FindOk c key
  | .next => NextOk rd c
  | .prev => PrevOk rd c
  | _ => True

instance (rd : Addr → Node) (c : Cursor) (m : OrdMap.Move Key) : Decidable (MoveOk rd c m) :=
  match m with
  | .find key => inferInstanceAs (Decidable (FindOk c key))
  | .first => inferInstanceAs (Decidable True)
  | .last => inferInstanceAs (Decidable True)
  | .next => inferInstanceAs (Decidable (NextOk rd c))
  | .prev => inferInstanceAs (Decidable (PrevOk rd c))

/-- Every call of a run meets the condition in the state it finds. -/
def WalkOk (rd : Addr → Node) (c : Cursor) : List (OrdMap.Move Key) → Prop
  | [] => True
  | m :: moves => MoveOk rd c m ∧ WalkOk rd (c.move rd m) moves

instance walkOkDecidable (rd : Addr → Node) :
    (c : Cursor) → (moves : List (OrdMap.Move Key)) → Decidable (WalkOk rd c moves)
  | _, [] => inferInstanceAs (Decidable True)
  | c, m :: moves =>
    have := walkOkDecidable rd (c.move rd m) moves
    inferInstanceAs (Decidable (_ ∧ _))

/-- The cursor stands where a search for `pos` ends, or nowhere. -/
structure Stands (m : Trie) (c : Cursor) (pos : Option Key) : Prop where
  root : c.root = m.root
  stack : ∀ t, m = some t → ∀ K, pos = some K → c.Stopped (t.search [] K)
  off : m = none ∨ pos = none → c.stack = []

theorem stands_init (m : Trie) : (init m.root).Stands m none :=
  ⟨rfl, by simp, fun _ => rfl⟩

theorem OnLeaf.search {c : Cursor} {t : Tree} {q : Path} {a : Addr} {k : Key} {v : Value}
    (h : c.OnLeaf t q a k v) (hwf : t.WF) : c.Stopped (t.search [] (q.str ++ k)) := by
  rw [Tree.search_self h.plug hwf]
  exact h.stopped

theorem OnLeaf.entries {c : Cursor} {t : Tree} {q : Path} {a : Addr} {k : Key} {v : Value}
    (h : c.OnLeaf t q a k v) : t.entries = q.before ++ (q.str ++ k, v) :: q.after := by
  rw [← h.plug, Path.entries_plug]
  simp [Tree.behind]

section Step

variable {rd : Addr → Node} {m : Trie} {c : Cursor} {pos : Option Key}

theorem Stands.find (h : c.Stands m pos) (hm : m.Valid rd) (hshallow : m.Shallow) {key : Key}
    (hlen : key.length ≤ MAX_KEY_SIZE) (hok : FindOk c key) :
    (c.move rd (.find key)).Stands m (some key) := by
  cases m with
  | none =>
    have hnil := h.off (Or.inl rfl)
    have hroot : c.root = 0 := h.root
    have hfind : c.find rd key = some { c with restKey := key } := by
      rw [find_of_le hlen, if_pos hnil, findRest, if_pos hnil, if_pos hroot]
    rw [move, hfind]
    exact ⟨h.root, by simp, fun _ => hnil⟩
  | some t =>
    have hpos : c.stack = [] ∨ ∃ K, c.Stopped (t.search [] K) := by
      cases pos with
      | none => exact Or.inl (h.off (Or.inr rfl))
      | some K => exact Or.inr ⟨K, h.stack t rfl K rfl⟩
    obtain ⟨c', hfind, hroot, hstop⟩ := find_stopped h.root (hm.addr_ne t rfl) hpos
      (hm.stored t rfl) (hm.wf t rfl) (hshallow t rfl) hlen hok
    rw [move, hfind]
    refine ⟨hroot.trans h.root, ?_, by simp⟩
    rintro _ ⟨rfl⟩ _ ⟨rfl⟩
    exact hstop

/-- A cursor that has been moved to a leaf. -/
theorem OnLeaf.stands {t : Tree} {q : Path} {a : Addr} {k : Key} {v : Value} (hwf : t.WF)
    (hroot : c.root = t.addr) (h : c.OnLeaf t q a k v) :
    c.Stands (some t) (some (q.str ++ k)) := by
  refine ⟨hroot, ?_, by simp⟩
  rintro _ ⟨rfl⟩ _ ⟨rfl⟩
  exact h.search hwf

theorem Stands.off_iff (h : c.Stands m pos) :
    c.stack = [] ∧ (m = none ∨ pos = none) ∨
      ∃ t K, m = some t ∧ pos = some K ∧ c.Stopped (t.search [] K) := by
  match m, pos with
  | none, _ => exact Or.inl ⟨h.off (Or.inl rfl), Or.inl rfl⟩
  | some t, none => exact Or.inl ⟨h.off (Or.inr rfl), Or.inr rfl⟩
  | some t, some K => exact Or.inr ⟨t, K, rfl, rfl, h.stack t rfl K rfl⟩

theorem Stands.next (h : c.Stands m pos) (hm : m.Valid rd) (hshallow : m.Shallow)
    (hok : NextOk rd c) : (c.next rd).Stands m (pos.bind (OrdMap.next m.entries)) := by
  rcases h.off_iff with ⟨hnil, hnone⟩ | ⟨t, K, rfl, rfl, hstop⟩
  . have hnext : c.next rd = { c with restKey := [] } := by
      simp [Cursor.next, hnil, nextLoop]
    have hpos : pos.bind (OrdMap.next m.entries) = none := by
      rcases hnone with rfl | rfl
      . cases pos <;> rfl
      . rfl
    rw [hnext, hpos]
    exact ⟨h.root, by simp, fun _ => hnil⟩
  . have hwf := hm.wf t rfl
    obtain ⟨hroot, l, r, hcut, hcase⟩ := next_stopped hstop
      (Tree.search_root_ends hwf K) hok (hm.stored t rfl) hwf (hshallow t rfl)
    rw [Option.bind_some, Trie.entries, hcut.next]
    rcases hcase with ⟨rfl, hnil⟩ | ⟨q, a, k, v, hleaf, rfl⟩
    . exact ⟨hroot.trans h.root, by simp [OrdMap.first], fun _ => hnil⟩
    . have hr : r = (q.str ++ k, v) :: q.after := by
        have heq := hcut.eq
        rw [hleaf.entries] at heq
        exact (List.append_cancel_left heq).symm
      rw [hr]
      exact hleaf.stands hwf (hroot.trans h.root)

theorem Stands.prev (h : c.Stands m pos) (hm : m.Valid rd) (hshallow : m.Shallow)
    (hok : PrevOk rd c) : (c.prev rd).Stands m (pos.bind (OrdMap.prev m.entries)) := by
  rcases h.off_iff with ⟨hnil, hnone⟩ | ⟨t, K, rfl, rfl, hstop⟩
  . have hprev : c.prev rd = { c with restKey := [] } := by
      simp [Cursor.prev, hnil, prevLoop]
    have hpos : pos.bind (OrdMap.prev m.entries) = none := by
      rcases hnone with rfl | rfl
      . cases pos <;> rfl
      . rfl
    rw [hprev, hpos]
    exact ⟨h.root, by simp, fun _ => hnil⟩
  . have hwf := hm.wf t rfl
    obtain ⟨hroot, l, r, hcut, hcase⟩ := prev_stopped hstop
      (Tree.search_root_ends hwf K) hok (hm.stored t rfl) hwf (hshallow t rfl)
    rw [Option.bind_some, Trie.entries, hcut.prev]
    rcases hcase with ⟨rfl, hnil⟩ | ⟨q, a, k, v, hleaf, rfl⟩
    . exact ⟨hroot.trans h.root, by simp [OrdMap.last], fun _ => hnil⟩
    . have hl : l = q.before ++ [(q.str ++ k, v)] := by
        have heq := hcut.eq
        rw [hleaf.entries, ← List.singleton_append, ← List.append_assoc] at heq
        exact (List.append_cancel_right heq).symm
      rw [hl, OrdMap.last, List.getLast?_append]
      exact hleaf.stands hwf (hroot.trans h.root)

/-- The root is entered again. -/
theorem clear_arrives {t : Tree} (hroot : c.root = t.addr) (haddr : t.addr ≠ 0) :
    c.clear.Arrives [] t := by
  rw [clear, if_neg (hroot ▸ haddr), hroot]
  exact push_arrives rfl rfl

theorem root_clear (c : Cursor) : c.clear.root = c.root := by
  rw [clear]
  split <;> rfl

theorem restKey_clear (c : Cursor) : c.clear.restKey = [] := by
  rw [clear]
  split <;> rfl

theorem clear_of_root_eq_zero (h : c.root = 0) : c.clear.stack = [] := by
  rw [clear, if_pos h]

theorem Stands.first (h : c.Stands m pos) (hm : m.Valid rd) (hshallow : m.Shallow) :
    (c.first rd).Stands m (OrdMap.first m.entries) := by
  match m with
  | none =>
    have hroot : c.root = 0 := h.root
    rw [Cursor.first, if_pos hroot]
    exact ⟨(root_clear c).trans h.root, by simp, fun _ => clear_of_root_eq_zero hroot⟩
  | some t =>
    have hwf := hm.wf t rfl
    have hroot : c.root = t.addr := h.root
    have haddr := hm.addr_ne t rfl
    obtain ⟨r, a, k, v, hr, hbefore, hlands⟩ := firstTop_lands (clear_arrives hroot haddr) rfl
      (hm.stored t rfl) hwf (hshallow t rfl) (height_le_maxDepth hwf (hshallow t rfl))
    rw [Cursor.first, if_neg (hroot ▸ haddr)]
    have hleaf : (firstTop rd MAX_DEPTH c.clear).OnLeaf t r a k v := by
      have hstop := hlands.stopped (known_nil _) (restKey_clear c) v
      rw [List.append_nil] at hstop
      exact ⟨hr, hstop⟩
    have hentries := hleaf.entries
    rw [hbefore, List.nil_append] at hentries
    rw [Trie.entries, hentries]
    exact hleaf.stands hwf ((hlands.root.trans (root_clear c)).trans hroot)

theorem Stands.last (h : c.Stands m pos) (hm : m.Valid rd) (hshallow : m.Shallow) :
    (c.last rd).Stands m (OrdMap.last m.entries) := by
  match m with
  | none =>
    have hroot : c.root = 0 := h.root
    rw [Cursor.last, if_pos hroot]
    exact ⟨(root_clear c).trans h.root, by simp, fun _ => clear_of_root_eq_zero hroot⟩
  | some t =>
    have hwf := hm.wf t rfl
    have hroot : c.root = t.addr := h.root
    have haddr := hm.addr_ne t rfl
    obtain ⟨r, a, k, v, hr, hafter, hlands⟩ := lastTop_lands (clear_arrives hroot haddr) rfl
      (hm.stored t rfl) hwf (hshallow t rfl) (height_le_maxDepth hwf (hshallow t rfl))
    rw [Cursor.last, if_neg (hroot ▸ haddr)]
    have hleaf : (lastTop rd MAX_DEPTH c.clear).OnLeaf t r a k v := by
      have hstop := hlands.stopped (known_nil _) (restKey_clear c) v
      rw [List.append_nil] at hstop
      exact ⟨hr, hstop⟩
    have hentries := hleaf.entries
    rw [hafter] at hentries
    rw [Trie.entries, hentries, OrdMap.last, List.getLast?_append]
    exact hleaf.stands hwf ((hlands.root.trans (root_clear c)).trans hroot)

end Step

/-- Where a search has ended the cursor shows the entry of the key, if there is one. -/
theorem Stopped.entry {rd : Addr → Node} {t : Tree} {c : Cursor} {s : Stop} {K : Key}
    (h : c.Stopped s) (hends : s.Ends t K) (hstored : Tree.Stored rd t) (hwf : t.WF) :
    c.shown? rd = OrdMap.entryAt t.entries (some K) := by
  obtain ⟨idx, hstack⟩ := h.stack
  have hroot := (Path.stored_plug.mp (hends.plug ▸ hstored)).2.root
  rw [OrdMap.entryAt, Option.bind_some, shown?, leaf?, hstack]
  rcases hends.hit_or_miss hwf with ⟨a, v, htree, hlen, hcmp, hlookup⟩ | ⟨hcmp, hlookup⟩
  . have hcur := h.currentKey
    rw [htree] at hcur hroot
    rw [Tree.label, hlen, List.take_length, ← hends.key] at hcur
    rw [hlookup]
    simp only [htree, hroot, Tree.root, hcmp, ↓reduceIte, Option.map_some, hcur]
  . rw [hlookup]
    simp only [hroot]
    cases s.tree <;> simp [Tree.root, hcmp]

section Run

variable {rd : Addr → Node} {m : Trie} {c : Cursor} {pos : Option Key}

theorem Stands.entry (h : c.Stands m pos) (hm : m.Valid rd) :
    c.shown? rd = OrdMap.entryAt m.entries pos := by
  rcases h.off_iff with ⟨hnil, hnone⟩ | ⟨t, K, rfl, rfl, hstop⟩
  . have hshow : c.shown? rd = none := by simp [shown?, leaf?, hnil]
    rw [hshow]
    rcases hnone with rfl | rfl
    . cases pos <;> rfl
    . rfl
  . exact hstop.entry (Tree.search_root_ends (hm.wf t rfl) K) (hm.stored t rfl)
      (hm.wf t rfl)

/-- One call. -/
theorem Stands.move (h : c.Stands m pos) (hm : m.Valid rd) (hshallow : m.Shallow)
    {mv : OrdMap.Move Key} (hok : MoveOk rd c mv) :
    (c.move rd mv).Stands m (OrdMap.walk m.entries pos (accepted [mv])) := by
  match mv with
  | .find key =>
    by_cases hlen : key.length ≤ MAX_KEY_SIZE
    . have hacc : accepted [.find key] = [.find key] := by simp [accepted, hlen]
      rw [hacc]
      exact h.find hm hshallow hlen hok
    . have hacc : accepted [.find key] = [] := by simp [accepted, hlen]
      have hfind : c.find rd key = none := by
        rw [Cursor.find, if_pos (Nat.lt_of_not_le hlen)]
      rw [hacc, Cursor.move, hfind]
      exact h
  | .first => exact h.first hm hshallow
  | .last => exact h.last hm hshallow
  | .next => exact h.next hm hshallow hok
  | .prev => exact h.prev hm hshallow hok

/-- A run of calls. -/
theorem Stands.walk (h : c.Stands m pos) (hm : m.Valid rd) (hshallow : m.Shallow)
    {moves : List (OrdMap.Move Key)} (hok : WalkOk rd c moves) :
    (c.walk rd moves).Stands m (OrdMap.walk m.entries pos (accepted moves)) := by
  induction moves generalizing c pos with
  | nil => exact h
  | cons mv moves ih =>
    have hstep := ih (h.move hm hshallow hok.1) hok.2
    have hacc : accepted (mv :: moves) = accepted [mv] ++ accepted moves := by
      rw [accepted, accepted, accepted, ← List.filter_append, List.singleton_append]
    rw [hacc, OrdMap.walk, List.foldl_append]
    exact hstep

end Run

/-- The cursor shows what the position shows, and is valid if that is something. -/
def Shows (rd : Addr → Node) (es : List (Key × Value)) (c : Cursor) (pos : Option Key) : Prop :=
  c.isValid rd = (OrdMap.entryAt es pos).isSome ∧ c.shown? rd = OrdMap.entryAt es pos

theorem isValid_eq (rd : Addr → Node) (c : Cursor) : c.isValid rd = (c.shown? rd).isSome := by
  rw [isValid, shown?, leaf?]
  split
  . rfl
  . split
    . split
      next h => simp [h]
      next h => simp [h]
    . rfl

theorem Stands.shows {rd : Addr → Node} {m : Trie} {c : Cursor} {pos : Option Key}
    (h : c.Stands m pos) (hm : m.Valid rd) : c.Shows rd m.entries pos := by
  rw [Shows, isValid_eq, h.entry hm]
  exact ⟨rfl, rfl⟩

theorem walkOk_append_singleton {rd : Addr → Node} {c : Cursor} {moves : List (OrdMap.Move Key)}
    {mv : OrdMap.Move Key} :
    WalkOk rd c (moves ++ [mv]) ↔ WalkOk rd c moves ∧ MoveOk rd (c.walk rd moves) mv := by
  induction moves generalizing c with
  | nil => simp [WalkOk, Cursor.walk]
  | cons m moves ih =>
    rw [List.cons_append, WalkOk, WalkOk, ih, Cursor.walk, Cursor.walk, List.foldl_cons]
    tauto

theorem endedAt_of_entry {rd : Addr → Node} {c : Cursor} (h : c.stack = [] ∨ (c.shown? rd).isSome) :
    endedAt rd c = none := by
  rw [shown?, leaf?] at h
  rw [endedAt]
  split
  . rfl
  next f fs hstack =>
    simp only [hstack, reduceCtorEq, false_or] at h
    split
    . rfl
    next t hrd => simp [hrd] at h

section Enumerate

variable {rd : Addr → Node} {m : Trie}

theorem accepted_replicate_next (n : Nat) :
    accepted (.first :: List.replicate n .next) = .first :: List.replicate n .next := by
  rw [accepted, List.filter_eq_self]
  intro mv hmv
  rcases List.mem_cons.mp hmv with rfl | hmv
  . rfl
  . rw [List.eq_of_mem_replicate hmv]

theorem accepted_replicate_prev (n : Nat) :
    accepted (.last :: List.replicate n .prev) = .last :: List.replicate n .prev := by
  rw [accepted, List.filter_eq_self]
  intro mv hmv
  rcases List.mem_cons.mp hmv with rfl | hmv
  . rfl
  . rw [List.eq_of_mem_replicate hmv]

/-- A cursor that stands at an entry, or nowhere, has not ended inside of the trie. -/
theorem Stands.endedAt_eq_none {c : Cursor} {n : Nat} {es : List (Key × Value)}
    (hes : ∀ e ∈ es, e ∈ m.entries) (h : c.Stands m (es[n]?.map (·.1))) (hm : m.Valid rd) :
    endedAt rd c = none := by
  refine endedAt_of_entry ?_
  rcases Nat.lt_or_ge n es.length with hn | hn
  . right
    rw [h.entry hm, List.getElem?_eq_getElem hn, Option.map_some,
      OrdMap.entryAt_of_mem hm.ascending (hes _ (List.getElem_mem hn))]
    rfl
  . left
    exact h.off (Or.inr (by rw [List.getElem?_eq_none hn]; rfl))

theorem walkOk_first_next (hm : m.Valid rd) (hshallow : m.Shallow) (n : Nat) :
    WalkOk rd (init m.root) (.first :: List.replicate n .next) := by
  induction n with
  | zero => exact ⟨trivial, trivial⟩
  | succ n ih =>
    rw [List.replicate_succ', ← List.cons_append, walkOk_append_singleton]
    refine ⟨ih, ?_⟩
    have hstands := (stands_init m).walk hm hshallow ih
    rw [accepted_replicate_next, OrdMap.walk_first_next hm.ascending] at hstands
    rw [MoveOk, NextOk, hstands.endedAt_eq_none (fun _ he => he) hm]
    simp

theorem walkOk_last_prev (hm : m.Valid rd) (hshallow : m.Shallow) (n : Nat) :
    WalkOk rd (init m.root) (.last :: List.replicate n .prev) := by
  induction n with
  | zero => exact ⟨trivial, trivial⟩
  | succ n ih =>
    rw [List.replicate_succ', ← List.cons_append, walkOk_append_singleton]
    refine ⟨ih, ?_⟩
    have hstands := (stands_init m).walk hm hshallow ih
    rw [accepted_replicate_prev, OrdMap.walk_last_prev hm.ascending] at hstands
    rw [MoveOk, PrevOk, hstands.endedAt_eq_none (fun _ he => List.mem_reverse.mp he) hm]
    simp

end Enumerate

/-- The nodes of a tree as a storage. -/
def storage (t : Tree) (a : Addr) : Node :=
  ((t.cells.find? (fun x => x.1 = a)).map (·.2)).getD (.leaf ⟨[], false, []⟩)

/-- The keys `61 00` and `61 62` below the node of `61`. -/
def twoKeys : Tree :=
  .node 8 [0x61] [(some 0, .leaf 16 [0] ⟨false, [1]⟩), (some 0x62, .leaf 24 [0x62] ⟨false, [2]⟩)]

theorem twoKeys_valid : Trie.Valid (storage twoKeys) (some twoKeys) := by
  refine ⟨?_, ?_, ?_⟩
  . rintro _ ⟨rfl⟩
    decide
  . rintro _ ⟨rfl⟩
    simp [twoKeys, Tree.Hangs, Tree.head, Tree.label, Branches.Sorted]
    decide
  . rintro _ ⟨rfl⟩
    unfold Tree.Stored
    decide

theorem twoKeys_shallow : Trie.Shallow (some twoKeys) := by
  rintro _ ⟨rfl⟩
  unfold Tree.Shallow
  decide

end Cursor
end Leaves
