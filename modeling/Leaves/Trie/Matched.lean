import Leaves.Trie.Search

/-!
How far a search comes: the part of the key it leaves behind is the longest prefix that the key
shares with a key of the trie.
-/

namespace Leaves

/-- The number of bytes of `key` that a search in a trie with the entries `es` finds. -/
def matchedLen {α : Type} (es : List (Key × α)) (key : Key) : Nat :=
  es.foldr (fun e n => max (getPrefix key e.1).1 n) 0

/-- The part of `key` that a search finds. -/
def matched {α : Type} (es : List (Key × α)) (key : Key) : Key := key.take (matchedLen es key)

section Matched

variable {α : Type} {es es' : List (Key × α)} {key : Key} {n : Nat}

@[simp]
theorem matchedLen_nil : matchedLen ([] : List (Key × α)) key = 0 := rfl

@[simp]
theorem matchedLen_cons {e : Key × α} :
    matchedLen (e :: es) key = max (getPrefix key e.1).1 (matchedLen es key) := rfl

theorem matchedLen_append :
    matchedLen (es ++ es') key = max (matchedLen es key) (matchedLen es' key) := by
  induction es with
  | nil => simp
  | cons e es ih =>
    rw [List.cons_append, matchedLen_cons, matchedLen_cons, ih]
    omega

theorem matchedLen_le : matchedLen es key ≤ key.length := by
  induction es with
  | nil => simp
  | cons e es ih =>
    have := getPrefix_le_left key e.1
    rw [matchedLen_cons]
    omega

/-- All keys of the trie share the same prefix with the key. -/
theorem matchedLen_eq (hne : es ≠ []) (h : ∀ e ∈ es, (getPrefix key e.1).1 = n) :
    matchedLen es key = n := by
  induction es with
  | nil => exact absurd rfl hne
  | cons e es ih =>
    have he := h e (by simp)
    rw [matchedLen_cons, he]
    by_cases hnil : es = []
    . rw [hnil]
      simp
    . rw [ih hnil fun x hx => h x (by simp [hx])]
      omega

theorem matchedLen_eq_zero (h : ∀ e ∈ es, (getPrefix key e.1).1 = 0) : matchedLen es key = 0 := by
  by_cases hne : es = []
  . rw [hne]
    rfl
  . exact matchedLen_eq hne h

theorem getPrefix_le_matchedLen {e : Key × α} (h : e ∈ es) :
    (getPrefix key e.1).1 ≤ matchedLen es key := by
  induction es with
  | nil => cases h
  | cons x es ih =>
    rw [matchedLen_cons]
    rcases List.mem_cons.mp h with rfl | h
    . omega
    . have := ih h
      omega

/-- A key of the trie is found completely. -/
theorem matched_of_mem {e : Key × α} (h : e ∈ es) : matched es e.1 = e.1 := by
  have hle : (getPrefix e.1 e.1).1 ≤ matchedLen es e.1 := getPrefix_le_matchedLen h
  rw [getPrefix_self] at hle
  rw [matched, List.take_of_length_le hle]

end Matched

/-- Behind a string the comparison goes on, unless it has ended inside. -/
theorem getPrefix_append_right {key c : Key} (w : Key) (h : (getPrefix key c).1 < c.length) :
    (getPrefix key (c ++ w)).1 = (getPrefix key c).1 := by
  induction key, c using getPrefix.induct with
  | case1 => simp at h
  | case2 a s => simp at h
  | case3 b c => simp [getPrefix]
  | case4 s a c i cmp heq ih =>
    rw [getPrefix, heq] at h
    simp only [↓reduceIte, List.length_cons, Nat.add_lt_add_iff_right] at h
    rw [heq] at ih
    simp only [List.cons_append, getPrefix, heq, ↓reduceIte, ih h]
  | case5 a s b c hne => simp [getPrefix, hne]

theorem getPrefix_eq_zero {key w : Key} (h : key = [] ∨ key.head? ≠ w.head?) :
    (getPrefix key w).1 = 0 := by
  match key, w with
  | [], [] => rfl
  | [], _ :: _ => rfl
  | _ :: _, [] => rfl
  | a :: key, b :: w =>
    rcases h with h | h
    . cases h
    . have hne : a ≠ b := by simpa using h
      rw [getPrefix, if_neg hne]

namespace Tree

theorem matchedLen_behind (c : Key) {es : List (Key × Value)} (hne : es ≠ []) (r : Key) :
    matchedLen (behind c es) (c ++ r) = c.length + matchedLen es r := by
  induction es with
  | nil => exact absurd rfl hne
  | cons e es ih =>
    have hcons : behind c (e :: es) = (c ++ e.1, e.2) :: behind c es := rfl
    rw [hcons, matchedLen_cons, matchedLen_cons, getPrefix_append_left]
    by_cases hnil : es = []
    . rw [hnil, behind_nil]
      simp
    . rw [ih hnil]
      simp only
      omega

/-- What hangs under another branch has nothing in common with the key. -/
theorem getPrefix_other {x : Branch × Tree} (hx : Hangs x) {r : Key} (hne : x.1 ≠ r.head?)
    {e : Key × Value} (he : e ∈ x.2.entries) : (getPrefix r e.1).1 = 0 := by
  obtain ⟨b, t⟩ := x
  refine getPrefix_eq_zero ?_
  match b with
  | none =>
    obtain ⟨a, v, rfl⟩ := entries_of_hangs_none hx
    rw [entries_leaf, List.mem_singleton] at he
    rw [he]
    by_cases hr : r = []
    . exact Or.inl hr
    . right
      simpa using hr
  | some b =>
    right
    rw [head_of_mem_entries hx.1 (show (e.1, e.2) ∈ t.entries from he)]
    exact Ne.symm hne

theorem matchedLen_branchEntries {arr : List (Branch × Tree)} {r : Key}
    (hh : ∀ x ∈ arr, Hangs x) (hne : ∀ x ∈ arr, x.1 ≠ r.head?) :
    matchedLen (branchEntries arr) r = 0 := by
  refine matchedLen_eq_zero fun e he => ?_
  obtain ⟨x, hx, hex⟩ := mem_branchEntries.mp he
  exact getPrefix_other (hh x hx) (hne x hx) hex

/-- The bytes of the key that the search has found from a node on. -/
theorem search_matchedLen {u : Tree} (hwf : u.WF) (p : Path) (key : Key) :
    (u.search p key).path.str.length + (u.search p key).prefixLen =
      p.str.length + matchedLen u.entries key := by
  induction u using Tree.induct generalizing p key with
  | leaf a k v =>
    rw [search_leaf]
    simp
  | node a c arr ih =>
    obtain ⟨-, -, hsort, hh, hsub⟩ := wf_node.mp hwf
    have hne := entries_ne_nil hwf
    by_cases hshort : (getPrefix key c).1 < c.length
    . rw [search_short a arr p hshort]
      have hall : ∀ e ∈ (node a c arr).entries, (getPrefix key e.1).1 = (getPrefix key c).1 := by
        intro e he
        obtain ⟨w, hw⟩ : c <+: e.1 := prefix_of_mem_entries (t := node a c arr) he
        rw [← hw]
        exact getPrefix_append_right w hshort
      rw [matchedLen_eq hne hall]
    . obtain ⟨r, rfl⟩ : ∃ r, key = c ++ r := by
        rcases getPrefix_cases key c with ⟨r, hr, -⟩ | ⟨h1, -⟩ | ⟨h1, -⟩
        . exact ⟨r, hr⟩
        . exact absurd h1 hshort
        . exact absurd h1 hshort
      rw [entries_node] at hne ⊢
      have hbranches : branchEntries arr ≠ [] := by
        intro hnil
        rw [hnil] at hne
        exact hne rfl
      rw [matchedLen_behind c hbranches]
      cases hset : Branches.isset arr r.head? with
      | false =>
        rw [search_missing hset, matchedLen_branchEntries hh]
        . simp
        . intro x hx heq
          rw [← heq] at hset
          rw [(Branches.isset_iff arr x.1).mpr ⟨x.2, hx⟩] at hset
          cases hset
      | true =>
        obtain ⟨l, x, r', rfl⟩ := Branches.exists_split hset
        let s : Step := ⟨a, c, l, r.head?, r'⟩
        have hsearch : (node a c (l ++ (r.head?, x) :: r')).search p (c ++ r) =
            x.search (s :: p) r := search_branch (s := s) hsort rfl
        have hsplit := Branches.sorted_append_cons.mp hsort
        have hl : matchedLen (branchEntries l) r = 0 := by
          apply matchedLen_branchEntries (fun y hy => hh y (by simp [hy]))
          intro y hy heq
          have := hsplit.2.2.1 y hy
          rw [heq] at this
          omega
        have hr' : matchedLen (branchEntries r') r = 0 := by
          apply matchedLen_branchEntries (fun y hy => hh y (by simp [hy]))
          intro y hy heq
          have := hsplit.2.2.2.1 y hy
          rw [heq] at this
          omega
        rw [hsearch, ih (r.head?, x) (by simp) (hsub _ (by simp)), Path.str_cons,
          branchEntries_append, branchEntries_cons, matchedLen_append, matchedLen_append, hl, hr']
        simp only [List.length_append, s]
        omega

/-- What a search from the root leaves behind. -/
theorem search_matched {t : Tree} (hwf : t.WF) (key : Key) :
    (t.search [] key).path.str ++
        (t.search [] key).tree.label.take (t.search [] key).prefixLen = matched t.entries key := by
  have hends := search_root_ends hwf key
  have hlen := search_matchedLen hwf [] key
  rw [Path.str_nil, List.length_nil, Nat.zero_add] at hlen
  have hle := hends.le
  have hkey := hends.key
  rw [Stop.suffix, ← List.append_assoc] at hkey
  have htake : ((t.search [] key).path.str ++
      (t.search [] key).tree.label.take (t.search [] key).prefixLen).length =
        matchedLen t.entries key := by
    rw [List.length_append, List.length_take, ← hlen]
    omega
  rw [matched, ← htake]
  conv =>
    rhs
    arg 2
    rw [hkey]
  rw [List.take_left]

end Tree
end Leaves
