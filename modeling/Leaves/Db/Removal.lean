import Leaves.Db.Refinement

/-!
Where a cursor is after `remove`, whatever calls have brought it to the key. What these have left in
the stack is part of the answer.
-/

namespace Leaves
namespace Cursor

/--
Where a node without a string loses its `NONE` branch and keeps more than one, the branch key of the
transition is in front of them.
-/
def removeOk (rd : Addr → Node) (c : Cursor) : List Transition → Bool
  | f :: g :: gs =>
    match rd g.node with
    | .leaf _ => true
    | .trie t =>
      match t.count with
      | 1 => removeOk rd c (g :: gs)
      | 2 => true
      | _ =>
        f.prefixLen ≠ 0 || t.len ≠ 0 || (Branches.remove t.array none).all fun x =>
          Branch.toInt (some (c.branchKey gs.length)) < x.1.toInt
  | _ => true

theorem removeOk_eq {rd : Addr → Node} {c : Cursor} {p : Path} {f : Transition} {x : Addr} {w : Key}
    (hst : p.Stored rd x) (hwf : p.WF) (hleads : p.Leads w) (hpre : f.prefixLen = w.length) :
    removeOk rd c (f :: frames p) = true ↔ PathOk c.branchKey p := by
  induction p generalizing f x w with
  | nil => exact iff_of_true rfl trivial
  | cons s p ih =>
    have hrd : rd (taken s p).node = _ := hst.1
    have hcount : TrieNode.count ⟨s.compressed,
        Branches.mapSnd Tree.addr s.left ++ (s.branch, x) :: Branches.mapSnd Tree.addr s.right⟩ =
        (s.left ++ s.right).length + 1 := by
      simp only [TrieNode.count, List.length_append, List.length_cons, Branches.length_mapSnd]
      omega
    have hpre0 : f.prefixLen = 0 ↔ s.branch = none := by
      rw [Path.leads_cons] at hleads
      rw [hpre, List.length_eq_zero_iff, ← hleads, List.head?_eq_none_iff]
    rw [frames_cons, removeOk, PathOk]
    simp only [hrd, hcount]
    rcases hrest : s.left ++ s.right with _ | ⟨y, _ | ⟨z, l⟩⟩
    . refine ih (f := taken s p) (w := s.compressed) hst.2.2.2 hwf.2.2.2.2.2 ?_ rfl
      have := Path.leads_step hwf []
      rwa [List.append_nil] at this
    . exact iff_of_true rfl trivial
    . simp only [List.length_cons, Bool.or_eq_true, List.all_eq_true, decide_eq_true_eq, TrieNode.len,
        BranchOk, length_frames, ne_eq, hpre0, List.length_eq_zero_iff]
      by_cases hbranch : s.branch = none
      . have hsort : Branches.Sorted (Branches.mapSnd Tree.addr s.left ++
            (s.branch, x) :: Branches.mapSnd Tree.addr s.right) := by
          have := (Branches.sorted_mapSnd Tree.addr _).mpr hwf.2.1
          rw [Branches.mapSnd_append, Branches.mapSnd_cons] at this
          exact Branches.sorted_replace this
        rw [hbranch] at hsort ⊢
        rw [Branches.remove_append_cons hsort, ← Branches.mapSnd_append, hrest, Branches.mapSnd,
          List.forall_mem_map]
        tauto
      . simp [hbranch]

/-- A call on a cursor that moves and removes. -/
inductive Call where
  | move (mv : OrdMap.Move Key)
  | remove

/-- One call. Where the cursor is not valid `remove` is refused. -/
def call (h : Heap) (c : Cursor) : Call → Except Fault (Heap × Cursor)
  | .move mv => .ok (h, c.move h.rd mv)
  | .remove => if c.isValid h.rd then remove h c else .ok (h, c)

def calls (h : Heap) (c : Cursor) : List Call → Except Fault (Heap × Cursor)
  | [] => .ok (h, c)
  | x :: xs => (call h c x).bind fun r => calls r.1 r.2 xs

/-- What one call leaves of a map. -/
def leftBy (rd : Addr → Node) (c : Cursor) (es : List (Key × Value)) : Call → List (Key × Value)
  | .move _ => es
  | .remove =>
    match c.shown? rd with
    | some e => OrdMap.erase es e.1
    | none => es

/-- What the calls leave of a map. -/
def remaining (h : Heap) (c : Cursor) (es : List (Key × Value)) : List Call → List (Key × Value)
  | [] => es
  | x :: xs =>
    match call h c x with
    | .ok (h', c') => remaining h' c' (c.leftBy h.rd es x) xs
    | .error _ => es

/-- `while (cursor.is_valid()) cursor.remove()`, the first rounds of it. -/
def removeLoop (h : Heap) (c : Cursor) : Nat → Except Fault (Heap × Cursor)
  | 0 => .ok (h, c)
  | n + 1 => if c.isValid h.rd then (remove h c).bind fun r => removeLoop r.1 r.2 n else .ok (h, c)

/-- The condition holds in every round. -/
def loopOk (h : Heap) (c : Cursor) : Nat → Bool
  | 0 => true
  | n + 1 =>
    !c.isValid h.rd || (removeFits h.rd c.stack && removeOk h.rd c c.stack &&
      match remove h c with
      | .ok (h, c) => loopOk h c n
      | .error _ => false)

/--
The cursor stands where a search ends, or nowhere. If `keep_stack` has found nothing left to do it
has dropped what was left of the key.
-/
def Placed (m : Trie) (c : Cursor) : Prop :=
  ∃ pos rest, ({ c with restKey := rest } : Cursor).Stands m pos ∧ (c.restKey = rest ∨ c.restKey = [])

theorem Stands.placed {m : Trie} {c : Cursor} {pos : Option Key} (h : c.Stands m pos) :
    c.Placed m := ⟨pos, c.restKey, h, Or.inl rfl⟩

section Move

variable {rd : Addr → Node} {m : Trie} {c : Cursor}

theorem placed_of_nil (hroot : c.root = m.root) (hnil : c.stack = []) : c.Placed m := by
  have hstands : c.Stands m none := ⟨hroot, by simp, fun _ => hnil⟩
  exact hstands.placed

theorem Rests.placed (h : c.Rests m) (hroot : c.root = m.root) (hm : m.Valid rd) : c.Placed m := by
  rcases h with hnil | ⟨t, q, a, k, v, rfl, hleaf⟩
  . exact placed_of_nil hroot hnil
  . exact (hleaf.stands (hm.wf t rfl) hroot).placed

/-- Only at a node the key can have ended. -/
theorem Stopped.ended {t : Tree} {s : Stop} {K : Key} (h : c.Stopped s) (hends : s.Ends t K)
    (hstored : Tree.Stored rd t) (hne : Cursor.endedAt rd c ≠ none) :
    ∃ a k arr, s.tree = .node a k arr ∧ s.cmp = -1 ∧ s.prefixLen = k.length := by
  obtain ⟨idx, hstack⟩ := h.stack
  have hroot := (Path.stored_plug.mp (hends.plug ▸ hstored)).2.root
  rw [Cursor.endedAt, hstack] at hne
  simp only [hroot] at hne
  cases htree : s.tree with
  | leaf a k v => simp [htree, Tree.root] at hne
  | node a k arr =>
    simp only [htree, Tree.root, TrieNode.len] at hne
    by_cases hend : s.cmp = -1 ∧ s.prefixLen = k.length
    . exact ⟨a, k, arr, rfl, hend.1, hend.2⟩
    . exact absurd (if_neg hend) hne

/-- `next` comes to a leaf, though it may be the wrong one. -/
theorem next_rests {t : Tree} {s : Stop} {K : Key} (h : c.Stopped s) (hends : s.Ends t K)
    (hstored : Tree.Stored rd t) (hwf : t.WF) (hshallow : t.Shallow) :
    (c.next rd).Rests (some t) := by
  by_cases hok : NextOk rd c
  . obtain ⟨-, l, r, -, ⟨-, hnil⟩ | ⟨q, a, k, v, hleaf, -⟩⟩ :=
      next_stopped h hends hok hstored hwf hshallow
    . exact Or.inl hnil
    . exact Or.inr ⟨t, q, a, k, v, rfl, hleaf⟩
  . have hne : endedAt rd c ≠ none := fun hnone => hok (by simp [NextOk, hnone])
    obtain ⟨a, k, arr, htree, hcmp, hlen⟩ := h.ended hends hstored hne
    obtain ⟨idx, hstack⟩ := h.stack
    have hplug := hends.plug
    rw [htree] at hplug
    obtain ⟨-, -, hsort, -, -⟩ := Tree.wf_node.mp (Path.wf_plug.mp (hplug ▸ hwf)).2.2
    obtain ⟨l, harr⟩ := Branches.exists_append_above hsort (some (c.branchKey s.path.length))
    refine (comes_between hstack ?_ (u16_eq (hshallow.str_lt hplug)) hlen ?_ ?_ h.known hplug hstored
      hwf hshallow harr).rests
    . rw [htree, Tree.addr]
    . simp only [hcmp]
      decide
    . rw [h.currentKey]
      exact List.prefix_append _ _

theorem prev_rests {t : Tree} {s : Stop} {K : Key} (h : c.Stopped s) (hends : s.Ends t K)
    (hstored : Tree.Stored rd t) (hwf : t.WF) (hshallow : t.Shallow) :
    (c.prev rd).root = c.root ∧ (c.prev rd).Rests (some t) := by
  by_cases hok : PrevOk rd c
  . obtain ⟨hroot, l, r, -, ⟨-, hnil⟩ | ⟨q, a, k, v, hleaf, -⟩⟩ :=
      prev_stopped h hends hok hstored hwf hshallow
    . exact ⟨hroot, Or.inl hnil⟩
    . exact ⟨hroot, Or.inr ⟨t, q, a, k, v, rfl, hleaf⟩⟩
  . have hne : endedAt rd c ≠ none := fun hnone => hok (by simp [PrevOk, hnone])
    obtain ⟨a, k, arr, htree, hcmp, hlen⟩ := h.ended hends hstored hne
    obtain ⟨idx, hstack⟩ := h.stack
    have hplug := hends.plug
    rw [htree] at hplug
    obtain ⟨-, -, hsort, -, -⟩ := Tree.wf_node.mp (Path.wf_plug.mp (hplug ▸ hwf)).2.2
    obtain ⟨r, harr⟩ := Branches.exists_below_append hsort (some (c.branchKey s.path.length))
    have hcur : s.path.str <+: c.currentKey := by
      rw [h.currentKey]
      exact List.prefix_append _ _
    have hlen' : c.stack.length = s.path.length + 1 := by simp [hstack]
    rw [prev, hlen', prevLoop, if_neg (by simp [hstack])]
    rcases prevTop_missing (c := { c with restKey := [] }) hstack (by rw [htree, Tree.addr])
      (u16_eq (hshallow.str_lt hplug)) (by simp [hcmp]) hlen hcur rfl h.known hplug hstored hwf
      hshallow harr rfl with
      ⟨-, c', htop, hroot, hret⟩ | ⟨c', q, a', k', v, htop, hroot, hleaf, -⟩
    . simp only [htop]
      obtain ⟨h1, ⟨-, hnil⟩ | ⟨q, a', k', v, hleaf, -⟩⟩ :=
        prevLoop_returns hret (Nat.le_refl _) hplug hstored hwf hshallow
      . exact ⟨h1.trans ((root_pop c').trans hroot), Or.inl hnil⟩
      . exact ⟨h1.trans ((root_pop c').trans hroot), Or.inr ⟨t, q, a', k', v, rfl, hleaf⟩⟩
    . simp only [htop]
      exact ⟨hroot, Or.inr ⟨t, q, a', k', v, rfl, hleaf⟩⟩

theorem find_isSome {key : Key} (hlen : key.length ≤ MAX_KEY_SIZE) :
    ∃ c', c.find rd key = some c' := by
  rw [find_of_le hlen]
  split
  . exact ⟨_, rfl⟩
  . split
    . exact ⟨_, rfl⟩
    . exact ⟨_, rfl⟩

/-- A search for the key the cursor is stuck on. -/
theorem find_stuck {rest key : Key} (hlen : key.length ≤ MAX_KEY_SIZE)
    (hok : ¬ FindOk { c with restKey := rest } key) :
    c.find rd key = some { c with restKey := [] } := by
  rw [FindOk, not_or, not_or, not_not] at hok
  obtain ⟨hnil, rfl, -⟩ := hok
  have hnil : ¬ c.stack = [] := hnil
  rw [find_of_le hlen, if_neg hnil, keepStack]
  simp only [getPrefix_self, and_self, ↓reduceIte, List.drop_length]

theorem Placed.move (h : c.Placed m) (hm : m.Valid rd) (hshallow : m.Shallow)
    (mv : OrdMap.Move Key) : (c.move rd mv).Placed m := by
  obtain ⟨pos, rest, hstands, hrest⟩ := h
  match mv with
  | .find key =>
    by_cases hlen : key.length ≤ MAX_KEY_SIZE
    . by_cases hok : FindOk { c with restKey := rest } key
      . have hstep := hstands.find hm hshallow hlen hok
        obtain ⟨c', hfind⟩ : ∃ c', c.find rd key = some c' := find_isSome hlen
        have hfind' : ({ c with restKey := rest } : Cursor).find rd key = some c' := hfind
        rw [Cursor.move, hfind', Option.getD_some] at hstep
        rw [Cursor.move, hfind, Option.getD_some]
        exact hstep.placed
      . have hfind : c.find rd key = some { c with restKey := [] } := find_stuck hlen hok
        rw [Cursor.move, hfind]
        exact ⟨pos, rest, hstands, Or.inr rfl⟩
    . have hfind : c.find rd key = none := by
        rw [Cursor.find, if_pos (Nat.lt_of_not_le hlen)]
      rw [Cursor.move, hfind]
      exact ⟨pos, rest, hstands, hrest⟩
  | .first => exact (hstands.first hm hshallow).placed
  | .last => exact (hstands.last hm hshallow).placed
  | .next =>
    rcases hstands.off_iff with ⟨hnil, -⟩ | ⟨t, K, rfl, rfl, hstop⟩
    . have hnext : c.next rd = { c with restKey := [] } := by
        simp [Cursor.next, show c.stack = [] from hnil, nextLoop]
      rw [Cursor.move, hnext]
      exact placed_of_nil hstands.root hnil
    . have hrests := next_rests hstop (Tree.search_root_ends (hm.wf t rfl) K) (hm.stored t rfl)
        (hm.wf t rfl) (hshallow t rfl)
      exact hrests.placed ((root_next rd _).trans hstands.root) hm
  | .prev =>
    rcases hstands.off_iff with ⟨hnil, -⟩ | ⟨t, K, rfl, rfl, hstop⟩
    . have hprev : c.prev rd = { c with restKey := [] } := by
        simp [Cursor.prev, show c.stack = [] from hnil, prevLoop]
      rw [Cursor.move, hprev]
      exact placed_of_nil hstands.root hnil
    . obtain ⟨hroot, hrests⟩ := prev_rests hstop (Tree.search_root_ends (hm.wf t rfl) K)
        (hm.stored t rfl) (hm.wf t rfl) (hshallow t rfl)
      exact hrests.placed (hroot.trans hstands.root) hm

/-- A cursor that shows an entry is where the search for its key ends. -/
theorem Placed.shown (h : c.Placed m) (hm : m.Valid rd) {K : Key} {v : Value}
    (hshown : c.shown? rd = some (K, v)) :
    ∃ t a w, m = some t ∧ c.root = t.addr ∧ c.Stopped (t.search [] K) ∧
      (t.search [] K).tree = .leaf a (t.search [] K).suffix w := by
  obtain ⟨pos, rest, hstands, hrest⟩ := h
  have hentry := hstands.entry hm
  rw [show shown? rd { c with restKey := rest } = c.shown? rd from rfl, hshown] at hentry
  rcases hstands.off_iff with ⟨-, rfl | rfl⟩ | ⟨t, K', rfl, rfl, hstop⟩
  . cases pos <;> cases hentry
  . cases hentry
  . obtain ⟨w, hw, heq⟩ := Option.map_eq_some_iff.mp hentry.symm
    cases heq
    have hends := Tree.search_root_ends (hm.wf t rfl) K
    rcases hends.hit_or_miss (hm.wf t rfl) with ⟨a, v', htree, -, -, -⟩ | ⟨-, hnone⟩
    . refine ⟨t, a, v', rfl, hstands.root, ?_, htree⟩
      have hnil : rest = [] := hstop.restKey.trans (hends.hit htree rfl).2
      have hc : ({ c with restKey := rest } : Cursor) = c := by
        rw [hnil] at hrest ⊢
        rw [← hrest.elim id id]
      rwa [hc] at hstop
    . have hw : OrdMap.lookup t.entries K = some v := hw
      rw [hnone] at hw
      cases hw

end Move

/-- A cursor that has left entries behind shows the one that comes next. -/
theorem Comes.shown {rd : Addr → Node} {c : Cursor} {m : Trie} {l : List (Key × Value)}
    (h : c.Comes m l) (hm : m.Valid rd) :
    l <+: m.entries ∧ c.shown? rd = m.entries[l.length]? := by
  rcases h with ⟨rfl, hnil⟩ | ⟨t, q, a, k, v, rfl, hleaf, rfl⟩
  . refine ⟨List.prefix_refl _, ?_⟩
    rw [List.getElem?_eq_none (Nat.le_refl _)]
    simp [shown?, leaf?, hnil]
  . have hwf := hm.wf t rfl
    have hentries := hleaf.entries
    have hmem : (q.str ++ k, v) ∈ t.entries := by simp [hentries]
    have hentry := (hleaf.search hwf).entry (Tree.search_root_ends hwf _) (hm.stored t rfl) hwf
    rw [OrdMap.entryAt_of_mem (Tree.ascending_entries hwf) hmem] at hentry
    rw [Trie.entries, hentry, hentries]
    exact ⟨List.prefix_append _ _, by simp⟩

section Step

variable {h : Heap} {c : Cursor} {m : Trie} {o : List Addr} {K : Key} {v : Value}

/-- The trie after a removal. The cursor shows the next key if `ok` holds. -/
structure Removed (es : List (Key × Value)) (o : List Addr) (next : Option Key) (ok : Prop)
    (h' : Heap) (c' : Cursor) (m' : Trie) : Prop where
  stores : h'.Stores m' o
  entries : m'.entries = es
  shallow : m'.Shallow
  placed : c'.Placed m'
  shows : c'.Shows h'.rd m'.entries next ↔ ok

/-- `remove` at a valid position. -/
theorem remove_shown (hs : h.Stores m o) (hshallow : m.Shallow) (hc : c.Placed m)
    (hshown : c.shown? h.rd = some (K, v)) :
    Outcome (remove h c) (removeFits h.rd c.stack)
      (Removed (OrdMap.erase m.entries K) o (OrdMap.next m.entries K)
        (removeOk h.rd c c.stack = true)) := by
  obtain ⟨t, a, w, rfl, hroot, hstop, htree⟩ := hc.shown hs.valid hshown
  have hwf := hs.valid.wf t rfl
  have hst := hs.valid.stored t rfl
  have hends := Tree.search_root_ends hwf K
  obtain ⟨s, hsearch⟩ : ∃ s, s = t.search [] K := ⟨_, rfl⟩
  rw [← hsearch] at hstop htree hends
  obtain ⟨hes, hout⟩ := remove_proceeds hs.holds hends hstop hroot htree
  obtain ⟨idx, hstack⟩ := hstop.stack
  have hplug := hends.plug
  rw [htree] at hplug
  obtain ⟨hpst, -⟩ := Path.stored_plug.mp (hplug ▸ hst)
  obtain ⟨hpwf, -, -⟩ := Path.wf_plug.mp (hplug ▸ hwf)
  have hentries := hends.entries_leaf htree
  have hnext : OrdMap.next t.entries K = OrdMap.first s.path.after := by
    have hasc := Tree.ascending_entries hwf
    rw [hentries] at hasc
    have hentries' : t.entries = (s.path.before ++ [(K, w)]) ++ s.path.after := by simp [hentries]
    rw [hentries', OrdMap.next_append ?_ hasc.around.2]
    intro x hx
    rcases List.mem_append.mp hx with hx | hx
    . exact le_of_lt (hasc.around.1 x hx)
    . exact le_of_eq (by rw [List.mem_singleton.mp hx])
  rw [hstack, removeFits_eq hpst hpwf, removeOk_eq hpst hpwf hends.leads
    (hends.prefixLen_leaf htree)]
  refine hout.mono fun h' c' m' hr => ?_
  have hm' := hr.stores.valid
  have hes' : m'.entries = s.path.before ++ s.path.after := hr.entries
  have hshallow' : m'.Shallow := hr.shallow _ (hplug ▸ hshallow t rfl)
  obtain ⟨l, hcomes, hl⟩ := hr.comes (hshallow t rfl) hshallow'
  refine ⟨hr.stores, hes'.trans hes.symm, hshallow', hcomes.rests.placed hr.root hm', ?_⟩
  obtain ⟨hpre', hshown'⟩ := hcomes.shown hm'
  have hfirst : OrdMap.entryAt m'.entries (OrdMap.next t.entries K) =
      m'.entries[s.path.before.length]? := by
    rw [hnext, hes', OrdMap.first, List.getElem?_append_right (Nat.le_refl _), Nat.sub_self]
    cases hafter : s.path.after with
    | nil => rfl
    | cons e es =>
      rw [List.head?_cons, Option.map_some, List.getElem?_cons_zero]
      refine OrdMap.entryAt_of_mem ?_ (by simp)
      rw [← hafter, ← hes']
      exact hm'.ascending
  rw [Trie.entries, Shows, isValid_eq, hfirst, hshown', ← hl]
  constructor
  . rintro ⟨-, heq⟩
    exact hm'.ascending.prefix_unique hpre' (hes' ▸ List.prefix_append _ _) heq
  . rintro rfl
    exact ⟨rfl, rfl⟩

theorem call_placed {h' : Heap} {c' : Cursor} {x : Call} (hs : h.Stores m o) (hshallow : m.Shallow)
    (hc : c.Placed m) (heq : call h c x = .ok (h', c')) :
    ∃ m', h'.Stores m' o ∧ m'.Shallow ∧ c'.Placed m' ∧ m'.entries = c.leftBy h.rd m.entries x := by
  match x with
  | .move mv =>
    cases heq
    exact ⟨m, hs, hshallow, hc.move hs.valid hshallow mv, rfl⟩
  | .remove =>
    rw [call, isValid_eq] at heq
    match hshown : c.shown? h.rd with
    | none =>
      rw [hshown, if_neg (by decide)] at heq
      cases heq
      exact ⟨m, hs, hshallow, hc, by rw [leftBy, hshown]⟩
    | some (K, v) =>
      rw [hshown, if_pos (by rfl)] at heq
      have hout := remove_shown hs hshallow hc hshown
      rw [Outcome] at hout
      split at hout
      next hfits =>
        obtain ⟨h1, c1, m1, hok, hr⟩ := hout
        rw [hok] at heq
        cases heq
        exact ⟨m1, hr.stores, hr.shallow, hr.placed, by rw [leftBy, hshown, hr.entries]⟩
      next hfits =>
        rw [hout] at heq
        cases heq

theorem calls_placed {h' : Heap} {c' : Cursor} {xs : List Call} (hs : h.Stores m o)
    (hshallow : m.Shallow) (hc : c.Placed m) (heq : calls h c xs = .ok (h', c')) :
    ∃ m', h'.Stores m' o ∧ m'.Shallow ∧ c'.Placed m' ∧ m'.entries = remaining h c m.entries xs := by
  induction xs generalizing h c m with
  | nil =>
    cases heq
    exact ⟨m, hs, hshallow, hc, rfl⟩
  | cons x xs ih =>
    rw [calls] at heq
    rw [remaining]
    match hcall : call h c x with
    | .error e =>
      rw [hcall] at heq
      cases heq
    | .ok (h1, c1) =>
      rw [hcall] at heq
      obtain ⟨m1, hs1, hshallow1, hc1, hes⟩ := call_placed hs hshallow hc hcall
      simp only [← hes]
      exact ih hs1 hshallow1 hc1 heq

/-- The rounds of the loop take the entries one by one. -/
def Drains (h : Heap) (c : Cursor) (es : List (Key × Value)) (o : List Addr) : Prop :=
  ∀ n ≤ es.length, ∃ h' c' m', removeLoop h c n = .ok (h', c') ∧ h'.Stores m' o ∧
    m'.entries = es.drop n ∧ c'.Shows h'.rd m'.entries (OrdMap.first m'.entries)

theorem drains_cons {h' : Heap} {c' : Cursor} {es : List (Key × Value)} (hs : h.Stores m o)
    (hentries : m.entries = (K, v) :: es) (hshows : c.Shows h.rd m.entries (OrdMap.first m.entries))
    (hvalid : c.isValid h.rd = true) (heq : remove h c = .ok (h', c')) :
    Drains h c m.entries o ↔ Drains h' c' es o := by
  have hloop : ∀ n, removeLoop h c (n + 1) = removeLoop h' c' n := by
    intro n
    rw [removeLoop, if_pos hvalid, heq]
    rfl
  have hlen : m.entries.length = es.length + 1 := by rw [hentries, List.length_cons]
  constructor
  . intro hdrains n hn
    obtain ⟨h1, c1, m1, hok, hrest⟩ := hdrains (n + 1) (by omega)
    rw [hloop] at hok
    rw [hentries, List.drop_succ_cons] at hrest
    exact ⟨h1, c1, m1, hok, hrest⟩
  . intro hdrains n hn
    match n with
    | 0 => exact ⟨h, c, m, rfl, hs, rfl, hshows⟩
    | n + 1 =>
      obtain ⟨h1, c1, m1, hok, hrest⟩ := hdrains n (by omega)
      rw [hloop, hentries, List.drop_succ_cons]
      exact ⟨h1, c1, m1, hok, hrest⟩

/-- The loop takes every entry if and only if the condition holds in every round. -/
theorem drains_iff {n : Nat} (hs : h.Stores m o) (hshallow : m.Shallow) (hc : c.Placed m)
    (hshows : c.Shows h.rd m.entries (OrdMap.first m.entries)) (hn : m.entries.length = n) :
    Drains h c m.entries o ↔ loopOk h c n = true := by
  induction n generalizing h c m with
  | zero =>
    refine iff_of_true (fun n hle => ?_) rfl
    obtain rfl : n = 0 := by omega
    exact ⟨h, c, m, rfl, hs, rfl, hshows⟩
  | succ n ih =>
    match hentries : m.entries with
    | [] => simp [hentries] at hn
    | (K, v) :: es =>
      have hasc := hs.valid.ascending
      rw [hentries] at hasc
      have hshown : c.shown? h.rd = some (K, v) := by
        rw [hshows.2, OrdMap.entryAt_first hs.valid.ascending, hentries, List.head?_cons]
      have hvalid : c.isValid h.rd = true := by rw [isValid_eq, hshown]; rfl
      have herase : OrdMap.erase m.entries K = es := hentries ▸ OrdMap.erase_cons hasc
      have hnext : OrdMap.next m.entries K = OrdMap.first es := hentries ▸ OrdMap.next_cons hasc
      have hout := remove_shown hs hshallow hc hshown
      rw [herase, hnext, Outcome] at hout
      rw [← hentries, loopOk, hvalid, Bool.not_true, Bool.false_or]
      split at hout
      next hfits =>
        obtain ⟨h', c', m', heq, hr⟩ := hout
        have hm' := hr.entries
        have hshows' := hr.shows
        rw [hm'] at hshows'
        rw [drains_cons hs hentries hshows hvalid heq, heq, hfits, Bool.true_and, Bool.and_eq_true,
          ← hshows']
        have hlen : m'.entries.length = n := by
          rw [hm']
          rw [hentries, List.length_cons] at hn
          omega
        constructor
        . intro hdrains
          obtain ⟨h1, c1, m1, hok, hs1, hes1, hfirst⟩ := hdrains 0 (Nat.zero_le _)
          cases hok
          rw [hes1, List.drop_zero] at hfirst
          refine ⟨hfirst, (ih hr.stores hr.shallow hr.placed ?_ hlen).mp (hm' ▸ hdrains)⟩
          rwa [hm']
        . rintro ⟨hfirst, hok⟩
          rw [← hm']
          exact (ih hr.stores hr.shallow hr.placed (by rwa [hm']) hlen).mpr hok
      next hfits =>
        rw [Bool.not_eq_true] at hfits
        rw [hfits, Bool.false_and, Bool.false_and]
        refine iff_of_false (fun hdrains => ?_) (by simp)
        obtain ⟨h1, c1, m1, hok, -⟩ := hdrains 1 (by omega)
        rw [removeLoop, if_pos hvalid, hout] at hok
        cases hok

end Step

theorem shallow_of_short {rd : Addr → Node} {m : Trie} (hm : m.Valid rd)
    (hshort : ∀ e ∈ m.entries, e.1.length ≤ 1) : m.Shallow := by
  rintro t ⟨rfl⟩
  apply Nat.lt_of_le_of_lt (Tree.deepest_le (n := 1) (hm.wf t rfl) hshort)
  decide

/-- The trie of a new database with keys of one byte at most. -/
theorem run_stores (es : List Edit) (hfits : Edit.runFits (Heap.create Edit.areas) 0 es = true)
    (hshort : ∀ k ∈ (es.foldl Edit.apply []).map (·.1), k.length ≤ 1) :
    ∃ h root, Edit.run (Heap.create Edit.areas) 0 es = some (h, root) ∧
      ∃ m : Trie, h.Stores m [] ∧ root = m.root ∧ m.Shallow ∧
        m.entries.map (·.1) = (es.foldl Edit.apply []).map (·.1) := by
  obtain ⟨h, root, hrun, m, hs, hroot, hrel⟩ :=
    Edit.run_represents (Edit.represents_create Edit.areas) hfits
  have hkeys := hrel.keys
  refine ⟨h, root, hrun, m, hs, hroot, ?_, hkeys⟩
  apply shallow_of_short hs.valid
  intro e he
  apply hshort
  rw [← hkeys]
  exact List.mem_map_of_mem he

/-- The empty key, `a` and `b`. -/
def emptyKey : List Edit :=
  [.value [] ⟨[1], []⟩, .value [0x61] ⟨[2], []⟩, .value [0x62] ⟨[3], []⟩]

/-- The trie of the three keys. -/
theorem emptyKey_stores : ∃ h root, Edit.run (Heap.create Edit.areas) 0 emptyKey = some (h, root) ∧
    ∃ m : Trie, h.Stores m [] ∧ root = m.root ∧ m.Shallow ∧
      m.entries.map (·.1) = [[], [0x61], [0x62]] :=
  run_stores emptyKey (by decide +kernel) (by decide)

end Cursor
end Leaves
