import Leaves.Merge.Merger
import Leaves.Db.Lemmas.Find

/-!
Where the cursor of the destination stands between the steps of a merge: it still has the
transitions of the way to the node that is merged, and a search from there ends where a search from
the root ends.
-/

namespace Leaves
namespace Cursor

/-- The cursor has come along the path, and maybe further. -/
structure Along (c : Cursor) (p : Path) : Prop where
  stack : ∃ fs, c.stack = fs ++ frames p
  currentKey : p.str <+: c.currentKey
  known : Known c.branchKey p

/-- The cursor has been trimmed to the path. -/
structure Trimmed (c : Cursor) (p : Path) : Prop where
  stack : c.stack = frames p
  currentKey : c.currentKey = p.str
  known : Known c.branchKey p

theorem Trimmed.along {c : Cursor} {p : Path} (h : c.Trimmed p) : c.Along p :=
  ⟨⟨[], h.stack⟩, h.currentKey ▸ List.prefix_rfl, h.known⟩

theorem frames_suffix (q p : Path) : ∃ fs, frames (q ++ p) = fs ++ frames p := by
  induction q with
  | nil => exact ⟨[], rfl⟩
  | cons s q ih =>
    obtain ⟨fs, hfs⟩ := ih
    exact ⟨taken s (q ++ p) :: fs, by rw [List.cons_append, frames_cons, hfs]; rfl⟩

theorem Along.drop {c : Cursor} {q p : Path} (h : c.Along (q ++ p)) : c.Along p := by
  obtain ⟨fs, hfs⟩ := h.stack
  obtain ⟨gs, hgs⟩ := frames_suffix q p
  refine ⟨⟨fs ++ gs, ?_⟩, ?_, h.known.drop⟩
  . rw [hfs, hgs, List.append_assoc]
  . have hkey := h.currentKey
    rw [Path.str_append] at hkey
    exact (List.prefix_append _ _).trans hkey

theorem Along.tail {c : Cursor} {p : Path} (h : c.Along p) : c.Along p.tail := by
  cases p with
  | nil => exact h
  | cons s p => exact Along.drop (q := [s]) h

theorem Along.trim {c : Cursor} {p : Path} (h : c.Along p) {size : Nat} (hsize : size = p.length) :
    (c.trim size p.str.length).Trimmed p := by
  obtain ⟨fs, hfs⟩ := h.stack
  refine ⟨?_, ?_, h.known⟩
  . have hdrop : c.stack.length - size = fs.length := by
      rw [hfs, List.length_append, length_frames, hsize]
      omega
    simp only [Cursor.trim]
    rw [hdrop, hfs, List.drop_left]
  . simp only [Cursor.trim, resizeKey]
    rw [resize_of_le h.currentKey.length_le]
    exact (List.prefix_iff_eq_take.mp h.currentKey).symm

theorem Stopped.along {c : Cursor} {s : Stop} (h : c.Stopped s) : c.Along s.path := by
  obtain ⟨idx, hstack⟩ := h.stack
  refine ⟨⟨[_], hstack⟩, ?_, h.known⟩
  rw [h.currentKey]
  exact List.prefix_append _ _

/-- From a trimmed cursor `find` ends where a search from the root ends. -/
theorem find_trimmed {rd : Addr → Node} {t u : Tree} {c : Cursor} {p : Path} {rest : Key}
    (htrim : c.Trimmed p) (hroot : c.root = t.addr) (haddr : t.addr ≠ 0) (hplug : p.plug u = t)
    (hstored : Tree.Stored rd t) (hwf : t.WF) (hshallow : t.Shallow)
    (hlen : (p.str ++ rest).length ≤ MAX_KEY_SIZE) (hne : p ≠ [] → rest ≠ []) :
    ∃ c', c.find rd (p.str ++ rest) = some c' ∧ c'.root = c.root ∧
      c'.Stopped (t.search [] (p.str ++ rest)) := by
  rw [find_of_le hlen]
  by_cases hnil : c.stack = []
  . rw [if_pos hnil]
    obtain ⟨h1, h2⟩ := findRest_stopped (c := { c with restKey := p.str ++ rest }) hroot haddr hnil
      rfl hstored hwf hlen
    exact ⟨_, rfl, h2, h1⟩
  . rw [if_neg hnil]
    have hp : p ≠ [] := by
      rintro rfl
      exact hnil htrim.stack
    have hkey : p.str ++ rest ≠ c.currentKey := by
      rw [htrim.currentKey]
      simp [hne hp]
    have hsame : (getPrefix (p.str ++ rest) c.currentKey).1 = p.str.length := by
      rw [htrim.currentKey]
      exact Tree.getPrefix_self_append p.str rest
    rcases dropWhile_frames p.str.length hplug hshallow with hdrop | ⟨q, s, r, rfl, hlt, hdrop⟩
    . -- nothing is left of the stack, the search starts at the root
      have hkeep : ({ c with restKey := p.str ++ rest } : Cursor).keepStack =
          (false, { c with restKey := p.str ++ rest, stack := [] }) := by
        have hcond : ¬ ((getPrefix (p.str ++ rest) c.currentKey).1 = (p.str ++ rest).length ∧
            (getPrefix (p.str ++ rest) c.currentKey).1 = c.currentKey.length) := by
          rw [getPrefix_eq_length_iff]
          exact hkey
        rw [hsame] at hcond
        rw [keepStack]
        simp only [htrim.stack, hsame, hdrop]
        rw [if_neg hcond]
      rw [hkeep]
      obtain ⟨h1, h2⟩ := findRest_stopped
        (c := { c with restKey := p.str ++ rest, stack := [] }) hroot haddr rfl rfl hstored hwf hlen
      exact ⟨_, rfl, h2, h1⟩
    . have hplug' : r.plug (s.tree (q.plug u)) = t := by
        rw [← hplug, Path.plug_append, Path.plug_cons]
      have hwfr : Path.WF (s :: r) := (Path.wf_plug (t := q.plug u).mp (hplug' ▸ hwf)).1
      have hr : u16 r.str.length = r.str.length := u16_eq (hshallow.str_lt hplug')
      have hcur : c.currentKey = r.str ++ (s.compressed ++ q.str) := by
        rw [htrim.currentKey, Path.str_append, Path.str_cons, List.append_assoc]
      obtain ⟨c', h1, h2, h3, h4, h5, h6⟩ := keepStack_enters
        (c := { c with restKey := Path.str (q ++ s :: r) ++ rest }) (f := taken s r) (p := r)
        (u := s.tree (q.plug u)) (w := s.compressed ++ q.str) hkey
        (by simp only [htrim.stack, hsame, hdrop]; rfl) rfl hr hr htrim.known.drop.tail hcur
        (by rw [hsame]; exact hlt) (fun _ => Path.leads_step hwfr _)
      rw [h1]
      simp only
      rw [findRest_of_ne_nil h2]
      refine ⟨_, rfl, ?_, h4.findTop hplug' hstored hwf hlen h5 h6⟩
      rw [root_findTop, h3]

end Cursor

namespace Tree

/-- A search that starts at the end of a path stays below it. -/
theorem search_below (u : Tree) (p : Path) (key : Key) :
    ∃ q, (u.search p key).path = q ++ p ∧ q.plug (u.search p key).tree = u := by
  induction u using Tree.induct generalizing p key with
  | leaf a k v =>
    rw [search_leaf]
    exact ⟨[], rfl, rfl⟩
  | node a c arr ih =>
    by_cases hshort : (getPrefix key c).1 < c.length
    . rw [search_short a arr p hshort]
      exact ⟨[], rfl, rfl⟩
    . have hgo : ∀ left right, left ++ right = arr →
          ∀ s, search.go a c left right p (key.drop (getPrefix key c).1) = some s →
          ∃ q, s.path = q ++ p ∧ q.plug s.tree = node a c arr := by
        intro left right
        induction right generalizing left with
        | nil =>
          intro _ s hs
          simp [search.go] at hs
        | cons x right ihr =>
          intro harr s hs
          obtain ⟨b, t⟩ := x
          rw [search.go] at hs
          split at hs
          . rw [Option.some.injEq] at hs
            subst hs
            have hmem : (b, t) ∈ arr := by
              rw [← harr]
              simp
            obtain ⟨q, hq, hplug⟩ := ih (b, t) hmem (⟨a, c, left, b, right⟩ :: p)
              (key.drop (getPrefix key c).1)
            refine ⟨q ++ [⟨a, c, left, b, right⟩], by rw [hq]; simp, ?_⟩
            rw [Path.plug_append, hplug, ← harr]
            rfl
          . exact ihr (left ++ [(b, t)]) (by rw [← harr]; simp) s hs
      rw [search]
      simp only [hshort, ↓reduceIte]
      cases hs : search.go a c [] arr p (key.drop (getPrefix key c).1) with
      | none => exact ⟨[], rfl, rfl⟩
      | some s => exact hgo [] arr rfl s hs

end Tree
end Leaves
