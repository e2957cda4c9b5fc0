import Leaves.Trie.Pages

/-!
Room for a new key: the node a search has ended at becomes a node with a branch less than it needs,
so that the rest of the key goes under the missing branch.
-/

namespace Leaves

/-- The string and the branches of a node that has room for a new branch `key`. -/
structure Stop.Room (s : Stop) (cs : Key) (arr : List (Branch × Tree)) (key : Branch) : Prop where
  len : cs.length ≤ 255
  sorted : Branches.Sorted arr
  hangs : ∀ x ∈ arr, Tree.Hangs x
  wf : ∀ x ∈ arr, x.2.WF
  unset : Branches.isset arr key = false
  fits : ∀ a, s.path.Fits (.node a cs arr)
  entries : s.tree.entries = Tree.behind cs (Tree.branchEntries arr)
  suffix : s.suffix = cs ++ s.rest
  key : s.rest.head? = key

namespace Stop

/-- The step to a new branch. -/
def into (a : Addr) (cs : Key) (arr : List (Branch × Tree)) (key : Branch) : Step :=
  ⟨a, cs, Branches.below arr key, key, Branches.above arr key⟩

section Room

variable {s : Stop} {t : Tree} {K cs : Key} {arr : List (Branch × Tree)} {key : Branch}

theorem Room.wf_into (room : s.Room cs arr key) {p : Path} (ht : s.path.Twin p)
    (hwf : s.path.WF) (a : Addr) : Path.WF (into a cs arr key :: p) := by
  have hins := Branches.sorted_insert (b := key) (x := (default : Tree)) room.sorted
  refine ⟨room.len, hins, ?_, ?_, ?_, ht.wf.mpr hwf⟩
  . intro x hx
    have := (Branches.mem_below.mp hx).1
    exact ⟨room.hangs x this, room.wf x this⟩
  . intro x hx
    have := (Branches.mem_above.mp hx).1
    exact ⟨room.hangs x this, room.wf x this⟩
  . intro u
    refine (ht.fits _).mpr ?_
    have h := room.fits a
    cases hp : s.path with
    | nil => trivial
    | cons s' p' =>
      rw [hp] at h
      exact ⟨h.1, h.2⟩

/-- The entries of the trie are those around the new branch. -/
theorem Room.around (room : s.Room cs arr key) {p : Path} (ht : s.path.Twin p)
    (hends : s.Ends t K) (a : Addr) :
    t.entries = Path.before (into a cs arr key :: p) ++ Path.after (into a cs arr key :: p) := by
  have harr : Tree.branchEntries arr = Tree.branchEntries (Branches.below arr key) ++
      Tree.branchEntries (Branches.above arr key) := by
    rw [← Tree.branchEntries_append, Branches.below_append_above room.sorted room.unset]
  rw [hends.entries, room.entries, harr, Path.before, Path.after, ht.before, ht.after, ht.str]
  simp [into, List.append_assoc]

theorem Room.str_into (room : s.Room cs arr key) {p : Path} (ht : s.path.Twin p)
    (hends : s.Ends t K) (a : Addr) : Path.str (into a cs arr key :: p) ++ s.rest = K := by
  rw [hends.key, room.suffix, Path.str_cons, ht.str, List.append_assoc]
  rfl

end Room

section Shapes

variable {s : Stop} {t : Tree} {K : Key}

theorem suffix_drop (h : s.Ends t K) : s.suffix.drop s.prefixLen = s.rest := by
  have : (s.tree.label.take s.prefixLen).length = s.prefixLen := by
    rw [List.length_take]
    exact Nat.min_eq_left h.le
  rw [Stop.suffix, List.drop_append_of_le_length (Nat.le_of_eq this.symm)]
  rw [List.drop_of_length_le (Nat.le_of_eq this), List.nil_append]

/-- Where the key leaves the string of a node, the two go on differently. -/
theorem Ends.diverges (h : s.Ends t K) (hne : s.suffix ≠ s.tree.label) :
    s.rest.head? ≠ (s.tree.label.drop s.prefixLen).head? := by
  have := head_drop_getPrefix hne
  rw [← h.prefixLen, suffix_drop h] at this
  exact this

/-- A node with the part of the string that the key shares takes the place of the node. -/
theorem Ends.fits_take (h : s.Ends t K) (hwf : t.WF) (hne : s.suffix ≠ s.tree.label) (a : Addr)
    (arr : List (Branch × Tree)) :
    s.path.Fits (.node a (s.tree.label.take s.prefixLen) arr) := by
  have hfits := (Path.wf_plug.mp (h.plug ▸ hwf)).2.1
  have hleads := h.leads
  have hdiv := h.diverges hne
  have hsuf : s.suffix = s.tree.label.take s.prefixLen ++ s.rest := rfl
  cases hp : s.path with
  | nil => trivial
  | cons s' p' =>
    rw [hp] at hfits hleads
    have hhead : s.tree.label.head? = s'.branch := hfits.1
    rw [Path.leads_cons, hsuf] at hleads
    cases hpre : s.prefixLen with
    | zero =>
      rw [hpre, List.take_zero, List.nil_append] at hleads
      rw [hpre, List.drop_zero, hleads, hhead] at hdiv
      exact absurd rfl hdiv
    | succ n =>
      cases hlabel : s.tree.label with
      | nil =>
        have hle := h.le
        rw [hlabel, hpre, List.length_nil] at hle
        omega
      | cons b w =>
        rw [hlabel, List.head?_cons] at hhead
        refine ⟨hhead, ?_⟩
        intro hnone
        have hb : s'.branch = none := hnone
        rw [hb] at hhead
        exact absurd hhead (by simp)

theorem room_leaf (h : s.Ends t K) (hwf : t.WF) {a : Addr} (copy : Addr) {k : Key} {v : Value}
    (htree : s.tree = .leaf a k v) (hne : s.suffix ≠ k) :
    s.Room (k.take s.prefixLen)
      [((k.drop s.prefixLen).head?, .leaf copy (k.drop s.prefixLen) v)] s.rest.head? := by
  have hw := (Path.wf_plug.mp (h.plug ▸ hwf)).2.2
  have hlabel : s.tree.label = k := by rw [htree]; rfl
  rw [htree, Tree.wf_leaf] at hw
  have hdiv := h.diverges (by rw [hlabel]; exact hne)
  rw [hlabel] at hdiv
  refine ⟨?_, by simp [Branches.Sorted], ?_, ?_, ?_, ?_, ?_, ?_, rfl⟩
  . rw [List.length_take]
    omega
  . simp [Tree.Hangs, Tree.head, Tree.label, Tree.isLeaf]
  . simp only [List.mem_singleton, forall_eq, Tree.wf_leaf, List.length_drop]
    refine ⟨by omega, fitsPage_mono hw.2 ?_⟩
    rw [LeafNode.sizeOf, LeafNode.sizeOf]
    omega
  . simpa [Branches.isset] using hdiv.symm
  . intro a'
    rw [← hlabel]
    exact h.fits_take hwf (by rw [hlabel]; exact hne) a' _
  . simp [htree, Tree.behind]
  . rw [Stop.suffix, hlabel]

theorem room_short (h : s.Ends t K) (hwf : t.WF) {a : Addr} (child : Addr) {c : Key}
    {arr : List (Branch × Tree)} (htree : s.tree = .node a c arr) (hlt : s.prefixLen < c.length) :
    s.Room (c.take s.prefixLen)
      [((c.drop s.prefixLen).head?, .node child (c.drop s.prefixLen) arr)] s.rest.head? := by
  have hw := (Path.wf_plug.mp (h.plug ▸ hwf)).2.2
  have hlabel : s.tree.label = c := by rw [htree]; rfl
  rw [htree, Tree.wf_node] at hw
  obtain ⟨hlen, hne, hsort, hh, hw⟩ := hw
  have hsuf : s.suffix ≠ s.tree.label := by
    intro heq
    have := h.prefixLen
    rw [heq, getPrefix_self, hlabel] at this
    simp only at this
    omega
  have hdiv := h.diverges hsuf
  rw [hlabel] at hdiv
  refine ⟨?_, by simp [Branches.Sorted], ?_, ?_, ?_, ?_, ?_, ?_, rfl⟩
  . rw [List.length_take]
    omega
  . simp only [List.mem_singleton, forall_eq]
    refine ⟨rfl, ?_⟩
    intro hnone
    rw [List.head?_eq_none_iff, List.drop_eq_nil_iff] at hnone
    omega
  . simp only [List.mem_singleton, forall_eq, Tree.wf_node, List.length_drop]
    exact ⟨by omega, hne, hsort, hh, hw⟩
  . simpa [Branches.isset] using hdiv.symm
  . intro a'
    rw [← hlabel]
    exact h.fits_take hwf hsuf a' _
  . simp [htree]
  . rw [Stop.suffix, hlabel]

theorem room_missing (h : s.Ends t K) (hwf : t.WF) {a : Addr} {c : Key}
    {arr : List (Branch × Tree)} (htree : s.tree = .node a c arr) (hlen : s.prefixLen = c.length)
    (hset : Branches.isset arr s.rest.head? = false) : s.Room c arr s.rest.head? := by
  obtain ⟨-, hfits, hw⟩ := Path.wf_plug.mp (h.plug ▸ hwf)
  rw [htree, Tree.wf_node] at hw
  obtain ⟨hc, -, hsort, hh, hw⟩ := hw
  refine ⟨hc, hsort, hh, hw, hset, ?_, by rw [htree, Tree.entries_node], ?_, rfl⟩
  . intro a'
    rw [htree] at hfits
    cases hp : s.path with
    | nil => trivial
    | cons s' p' =>
      rw [hp] at hfits
      exact hfits
  . rw [Stop.suffix, htree, hlen]
    simp [Tree.label]

end Shapes

end Stop
end Leaves
