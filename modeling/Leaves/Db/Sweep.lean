import Leaves.Db.Removal

/-!
A cursor that goes through the entries of a trie and removes some of them: where it is after every
step, also where the empty key is removed and the branch key of a new cursor is in the way.
-/

namespace Leaves
namespace Cursor

/-- The cursor has left the entries `l` behind and shows the first of `es`. -/
structure Faces (h : Heap) (c : Cursor) (o : List Addr) (l es : List (Key × Value)) (m : Trie) :
    Prop where
  stores : h.Stores m o
  shallow : m.Shallow
  placed : c.Placed m
  entries : m.entries = l ++ es
  shows : c.Shows h.rd m.entries (OrdMap.first es)

section Steps

variable {h : Heap} {c : Cursor} {o : List Addr} {l es : List (Key × Value)} {m : Trie}
  {e : Key × Value}

theorem Placed.root (h : c.Placed m) : c.root = m.root := by
  obtain ⟨pos, rest, hstands, -⟩ := h
  exact hstands.root

theorem entryAt_append_first (hasc : OrdMap.Ascending (l ++ es)) :
    OrdMap.entryAt (l ++ es) (OrdMap.first es) = es.head? := by
  cases es with
  | nil => rfl
  | cons e es => exact OrdMap.entryAt_of_mem hasc (by simp)

theorem Faces.ascending (hf : Faces h c o l es m) : OrdMap.Ascending (l ++ es) := by
  rw [← hf.entries]
  exact hf.stores.valid.ascending

theorem Faces.shown (hf : Faces h c o l es m) : c.shown? h.rd = es.head? := by
  rw [hf.shows.2, hf.entries]
  exact entryAt_append_first hf.ascending

theorem Faces.next_eq (hf : Faces h c o l (e :: es) m) :
    OrdMap.next m.entries e.1 = OrdMap.first es := by
  have hasc := hf.ascending.around
  have hsplit : m.entries = (l ++ [e]) ++ es := by
    rw [hf.entries, List.append_assoc, List.singleton_append]
  rw [hsplit]
  apply OrdMap.next_append
  . intro x hx
    rw [List.mem_append, List.mem_singleton] at hx
    rcases hx with hx | rfl
    . exact le_of_lt (hasc.1 x hx)
    . exact le_refl _
  . exact hasc.2

/-- The entry is kept. -/
theorem Faces.next (hf : Faces h c o l (e :: es) m) :
    Faces h (c.next h.rd) o (l ++ [e]) es m := by
  have hshown : c.shown? h.rd = some (e.1, e.2) := hf.shown
  have hm := hf.stores.valid
  obtain ⟨t, a, w, rfl, hroot, hstop, htree⟩ := hf.placed.shown hm hshown
  have hstands : c.Stands (some t) (some e.1) := by
    refine ⟨hroot, ?_, by simp⟩
    rintro _ ⟨rfl⟩ _ ⟨rfl⟩
    exact hstop
  have hended : endedAt h.rd c = none := by
    apply endedAt_of_entry
    rw [hshown]
    exact Or.inr rfl
  have hnext := hstands.next hm hf.shallow (by simp [NextOk, hended])
  rw [Option.bind_some, hf.next_eq] at hnext
  refine ⟨hf.stores, hf.shallow, hnext.placed, ?_, hnext.shows hm⟩
  rw [hf.entries, List.append_assoc, List.singleton_append]

/-- The entry is removed. -/
theorem Faces.remove (hf : Faces h c o l (e :: es) m) :
    Outcome (remove h c) (removeFits h.rd c.stack) fun h' c' m' =>
      removeOk h.rd c c.stack = true → Faces h' c' o l es m' := by
  have hout := remove_shown hf.stores hf.shallow hf.placed hf.shown
  have hasc := hf.ascending.around
  refine hout.mono fun h' c' m' hr hok => ?_
  have herase : OrdMap.erase m.entries e.1 = l ++ es := by
    rw [hf.entries]
    exact OrdMap.erase_append_cons hasc.1 hasc.2
  have hshows := hr.shows.mpr hok
  rw [hf.next_eq] at hshows
  exact ⟨hr.stores, hr.shallow, hr.placed, hr.entries.trans herase, hshows⟩

/-- A new cursor on the first entry. -/
theorem faces_first (hs : h.Stores m o) (hshallow : m.Shallow) :
    Faces h ((init m.root).first h.rd) o [] m.entries m := by
  have hfirst := (stands_init m).first hs.valid hshallow
  exact ⟨hs, hshallow, hfirst.placed, rfl, hfirst.shows hs.valid⟩

theorem Comes.faces (hcomes : c.Comes m l) (hs : h.Stores m o) (hshallow : m.Shallow)
    (hroot : c.root = m.root) (hentries : m.entries = l ++ es) : Faces h c o l es m := by
  have hm := hs.valid
  have hasc := hm.ascending
  refine ⟨hs, hshallow, hcomes.rests.placed hroot hm, hentries, ?_⟩
  rw [Shows, isValid_eq, (hcomes.shown hm).2, hentries, entryAt_append_first (hentries ▸ hasc),
    List.getElem?_append_right (Nat.le_refl _), Nat.sub_self, List.head?_eq_getElem?]
  exact ⟨rfl, rfl⟩

end Steps

/-! The empty key is at the root, and nowhere else the branch key is in the way. -/

section EmptyKey

variable {bk : Nat → UInt8} {p : Path} {s : Step} {w : Key}

/-- A node without a string is the root. -/
theorem path_eq_nil (hwf : Path.WF (s :: p)) (hnil : s.compressed = []) : p = [] := by
  cases p with
  | nil => rfl
  | cons s' p =>
    have hfits : Path.Fits (s' :: p) (s.tree default) := hwf.2.2.2.2.1 default
    exact absurd hnil (hfits.label_ne_nil rfl)

theorem pathOk_of_ne_nil (hwf : Path.WF p) (hleads : p.Leads w) (hne : Path.str p ++ w ≠ []) :
    PathOk bk p := by
  induction p generalizing w with
  | nil => trivial
  | cons s p ih =>
    rw [PathOk]
    rcases s.left ++ s.right with _ | ⟨y, _ | ⟨z, arr⟩⟩
    . have hstep := Path.leads_step hwf []
      rw [List.append_nil] at hstep
      by_cases hstr : Path.str p ++ s.compressed = []
      . rw [path_eq_nil hwf (List.append_eq_nil_iff.mp hstr).2]
        trivial
      . exact ih hwf.2.2.2.2.2 hstep hstr
    . trivial
    . intro hbranch hnil
      exfalso
      apply hne
      rw [Path.leads_cons, hbranch, List.head?_eq_none_iff] at hleads
      rw [path_eq_nil hwf hnil, hleads, Path.str_cons, hnil]
      rfl

/-- The path to the empty key. -/
theorem path_emptyKey (hwf : Path.WF (s :: p)) (hleads : Path.Leads (s :: p) w)
    (hkey : Path.str (s :: p) ++ w = []) :
    p = [] ∧ w = [] ∧ s.compressed = [] ∧ s.branch = none ∧ s.left = [] := by
  rw [Path.str_cons, List.append_eq_nil_iff, List.append_eq_nil_iff] at hkey
  obtain ⟨⟨-, hnil⟩, rfl⟩ := hkey
  have hbranch : s.branch = none := by
    rw [Path.leads_cons] at hleads
    exact hleads.symm
  have hleft : s.left = [] := left_eq_nil (x := default) (hbranch ▸ hwf.2.1)
  exact ⟨path_eq_nil hwf hnil, rfl, hnil, hbranch, hleft⟩

theorem head_of_hangs {x : Branch × Tree} (hx : Tree.Hangs x) {e : Key × Value}
    (he : e ∈ x.2.entries) : e.1.head? = x.1 := by
  obtain ⟨b, t⟩ := x
  cases b with
  | none =>
    obtain ⟨a, v, rfl⟩ := Tree.entries_of_hangs_none hx
    rw [Tree.entries_leaf, List.mem_singleton] at he
    rw [he]
    rfl
  | some b => exact Tree.head_of_mem_entries hx.1 he

/-- The keys do not all start with the same byte. -/
def Spread (es : List (Key × Value)) : Prop := ∃ e ∈ es, ∃ e' ∈ es, e.1.head? ≠ e'.1.head?

instance (es : List (Key × Value)) : Decidable (Spread es) :=
  inferInstanceAs (Decidable (∃ e ∈ es, _))

theorem spread_branchEntries {arr : List (Branch × Tree)} (hsort : Branches.Sorted arr)
    (hangs : ∀ x ∈ arr, Tree.Hangs x) (hwf : ∀ x ∈ arr, x.2.WF) :
    Spread (Tree.branchEntries arr) ↔ 2 ≤ arr.length := by
  constructor
  . rintro ⟨e, he, e', he', hne⟩
    obtain ⟨x, hx, hxe⟩ := Tree.mem_branchEntries.mp he
    obtain ⟨y, hy, hye⟩ := Tree.mem_branchEntries.mp he'
    rw [head_of_hangs (hangs x hx) hxe, head_of_hangs (hangs y hy) hye] at hne
    match arr with
    | [] => cases hx
    | [z] =>
      rw [List.mem_singleton] at hx hy
      rw [hx, hy] at hne
      exact absurd rfl hne
    | _ :: _ :: _ => simp
  . intro hlen
    match arr with
    | x :: y :: arr =>
      obtain ⟨e, he⟩ := List.exists_mem_of_ne_nil _ (Tree.entries_ne_nil (hwf x (by simp)))
      obtain ⟨e', he'⟩ := List.exists_mem_of_ne_nil _ (Tree.entries_ne_nil (hwf y (by simp)))
      refine ⟨e, Tree.mem_branchEntries.mpr ⟨x, by simp, he⟩, e',
        Tree.mem_branchEntries.mpr ⟨y, by simp, he'⟩, ?_⟩
      rw [head_of_hangs (hangs x (by simp)) he, head_of_hangs (hangs y (by simp)) he']
      intro heq
      have hlt := (List.pairwise_cons.mp hsort).1 y (by simp)
      rw [heq] at hlt
      exact lt_irrefl _ hlt

/-- The key starts with a byte that is not behind the branch key. -/
def atMost (b : UInt8) (e : Key × Value) : Bool := Branch.toInt e.1.head? ≤ Branch.toInt (some b)

theorem branchEntries_atMost {arr left : List (Branch × Tree)} {b : UInt8}
    (hsort : Branches.Sorted arr) (hangs : ∀ x ∈ arr, Tree.Hangs x)
    (harr : left ++ Branches.above arr (some b) = arr) :
    Tree.branchEntries left = (Tree.branchEntries arr).filter (atMost b) ∧
    Tree.branchEntries (Branches.above arr (some b)) =
      (Tree.branchEntries arr).filter (fun e => !atMost b e) := by
  have hmem : ∀ x ∈ left, x ∈ arr := fun x hx => harr ▸ List.mem_append_left _ hx
  have hleft : ∀ e ∈ Tree.branchEntries left, atMost b e = true := by
    intro e he
    obtain ⟨x, hx, hxe⟩ := Tree.mem_branchEntries.mp he
    rw [atMost, head_of_hangs (hangs x (hmem x hx)) hxe, decide_eq_true_eq]
    apply Int.not_lt.mp
    intro hlt
    rw [← harr, Branches.Sorted, List.pairwise_append] at hsort
    exact lt_irrefl _ (hsort.2.2 x hx x (Branches.mem_above.mpr ⟨hmem x hx, hlt⟩))
  have habove : ∀ e ∈ Tree.branchEntries (Branches.above arr (some b)), atMost b e = false := by
    intro e he
    obtain ⟨x, hx, hxe⟩ := Tree.mem_branchEntries.mp he
    obtain ⟨hx, hlt⟩ := Branches.mem_above.mp hx
    rw [atMost, head_of_hangs (hangs x hx) hxe, decide_eq_false_iff_not]
    exact Int.not_le.mpr hlt
  have hsplit : Tree.branchEntries arr =
      Tree.branchEntries left ++ Tree.branchEntries (Branches.above arr (some b)) := by
    rw [← Tree.branchEntries_append, harr]
  rw [hsplit, List.filter_append, List.filter_append, List.filter_eq_self.mpr hleft,
    List.filter_eq_nil_iff.mpr, List.filter_eq_nil_iff.mpr, List.filter_eq_self.mpr]
  . exact ⟨(List.append_nil _).symm, rfl⟩
  . intro e he
    rw [habove e he]
    rfl
  . intro e he
    rw [hleft e he]
    decide
  . intro e he
    rw [habove e he]
    decide

end EmptyKey

section Remove

variable {h : Heap} {c : Cursor} {o : List Addr} {l es : List (Key × Value)} {m : Trie}
  {e : Key × Value} {v : Value}

/-- The way to the entry that is shown. -/
structure ShownAt (rd : Addr → Node) (c : Cursor) (l es : List (Key × Value)) (e : Key × Value)
    (t : Tree) (s : Stop) (a : Addr) : Prop where
  ends : s.Ends t e.1
  stopped : c.Stopped s
  root : c.root = t.addr
  tree : s.tree = .leaf a s.suffix e.2
  wf : Path.WF s.path
  leads : s.path.Leads s.suffix
  key : Path.str s.path ++ s.suffix = e.1
  before : Path.before s.path = l
  after : Path.after s.path = es
  removeOk : removeOk rd c c.stack = true ↔ PathOk c.branchKey s.path

theorem Faces.reaches (hf : Faces h c o l (e :: es) m) :
    ∃ t s a, m = some t ∧ ShownAt h.rd c l es e t s a := by
  have hshown : c.shown? h.rd = some (e.1, e.2) := hf.shown
  obtain ⟨t, a, w, rfl, hroot, hstop, htree⟩ := hf.placed.shown hf.stores.valid hshown
  have hwf := hf.stores.valid.wf t rfl
  have hends := Tree.search_root_ends hwf e.1
  obtain ⟨s, hsearch⟩ : ∃ s, s = t.search [] e.1 := ⟨_, rfl⟩
  rw [← hsearch] at hstop htree hends
  obtain ⟨idx, hstack⟩ := hstop.stack
  have hplug := hends.plug
  rw [htree] at hplug
  obtain ⟨hpst, -⟩ := Path.stored_plug.mp (hplug ▸ hf.stores.valid.stored t rfl)
  obtain ⟨hpwf, -, -⟩ := Path.wf_plug.mp (hplug ▸ hwf)
  have hentries := hends.entries_leaf htree
  have hboth : Path.before s.path ++ (e.1, w) :: Path.after s.path = l ++ e :: es := by
    rw [← hentries]
    exact hf.entries
  have hasc := Tree.ascending_entries hwf
  rw [hentries] at hasc
  have hbefore : Path.before s.path = l := by
    have hbelow : ∀ (l' es' : List (Key × Value)) (e' : Key × Value), e'.1 = e.1 →
        OrdMap.Ascending (l' ++ e' :: es') → OrdMap.below (l' ++ e' :: es') e.1 = l' := by
      intro l' es' e' heq hasc'
      apply OrdMap.below_append
      . rw [← heq]
        exact hasc'.around.1
      . intro x hx
        rw [List.mem_cons] at hx
        rcases hx with rfl | hx
        . exact le_of_eq heq.symm
        . rw [← heq]
          exact le_of_lt (hasc'.around.2 x hx)
    rw [← hbelow _ _ (e.1, w) rfl hasc, hboth, hbelow l es e rfl hf.ascending]
  rw [hbefore, List.append_cancel_left_eq, List.cons.injEq] at hboth
  have hw : w = e.2 := by rw [← hboth.1]
  subst hw
  refine ⟨t, s, a, rfl, hends, hstop, hroot, htree, hpwf, hends.leads, hends.key.symm, hbefore,
    hboth.2, ?_⟩
  rw [hstack]
  exact removeOk_eq hpst hpwf hends.leads (hends.prefixLen_leaf htree)

theorem Faces.removeOk (hf : Faces h c o l (e :: es) m) (hne : e.1 ≠ []) :
    removeOk h.rd c c.stack = true := by
  obtain ⟨t, s, a, rfl, hr⟩ := hf.reaches
  rw [hr.removeOk]
  apply pathOk_of_ne_nil hr.wf hr.leads
  rw [hr.key]
  exact hne

/-- The path to the empty key ends at the root, or there is no other key. -/
theorem ShownAt.emptyKey {t : Tree} {s : Stop} {a : Addr}
    (hr : ShownAt h.rd c l es ([], v) t s a) :
    s.path = [] ∨ ∃ g, s.path = [g] ∧ s.suffix = [] ∧ g.compressed = [] ∧ g.branch = none ∧
      g.left = [] ∧ es = Tree.branchEntries g.right ∧
      (Spread es ↔ 2 ≤ (g.left ++ g.right).length) := by
  match hpath : s.path with
  | [] => exact Or.inl rfl
  | g :: p =>
    right
    have hwf := hr.wf
    have hleads := hr.leads
    have hkey := hr.key
    have hafter := hr.after
    rw [hpath] at hwf hleads hkey hafter
    obtain ⟨rfl, hsuffix, hnil, hbranch, hleft⟩ := path_emptyKey hwf hleads hkey
    have hes : es = Tree.branchEntries g.right := by
      rw [← hafter, Path.after, Path.after, hnil]
      simp
    refine ⟨g, rfl, hsuffix, hnil, hbranch, hleft, hes, ?_⟩
    have hsort : Branches.Sorted g.right := by
      have := Branches.sorted_remove hwf.2.1
      rwa [hleft, List.nil_append] at this
    rw [hes, hleft, List.nil_append]
    apply spread_branchEntries hsort
    . exact fun x hx => (hwf.2.2.2.1 x hx).1
    . exact fun x hx => (hwf.2.2.2.1 x hx).2

theorem Faces.removeOk_emptyKey (hf : Faces h c o l (([], v) :: es) m) (hspread : ¬Spread es) :
    Cursor.removeOk h.rd c c.stack = true := by
  obtain ⟨t, s, a, rfl, hr⟩ := hf.reaches
  rw [hr.removeOk]
  rcases hr.emptyKey with hpath | ⟨g, hpath, -, -, -, -, -, hiff⟩
  . rw [hpath]
    trivial
  . rw [hpath, PathOk]
    rcases hlr : g.left ++ g.right with _ | ⟨y, _ | ⟨z, arr⟩⟩
    . trivial
    . trivial
    . rw [hlr] at hiff
      exact absurd (hiff.mpr (by simp)) hspread

/-- The empty key is removed, and the cursor leaves more behind than there was before it. -/
theorem Faces.remove_emptyKey (hf : Faces h c o [] (([], v) :: es) m) (hspread : Spread es) :
    removeFits h.rd c.stack = true ∧ ∃ h' c' m', Cursor.remove h c = .ok (h', c') ∧
      Faces h' c' o (es.filter (atMost (c.branchKey 0)))
        (es.filter fun e => !atMost (c.branchKey 0) e) m' := by
  have hout := hf.remove
  obtain ⟨t, s, a, rfl, hr⟩ := hf.reaches
  obtain ⟨g, hpath, hsuffix, hnil, hbranch, hleft, hes, hiff⟩ :
      ∃ g, s.path = [g] ∧ s.suffix = [] ∧ g.compressed = [] ∧ g.branch = none ∧ g.left = [] ∧
        es = Tree.branchEntries g.right ∧ (Spread es ↔ 2 ≤ (g.left ++ g.right).length) := by
    rcases hr.emptyKey with hpath | hpath
    . have hafter := hr.after
      rw [hpath, Path.after] at hafter
      obtain ⟨e, he, -⟩ := hspread
      rw [← hafter] at he
      cases he
    . exact hpath
  have hmany := hiff.mp hspread
  have hwf := hr.wf
  have hleads := hr.leads
  rw [hpath] at hwf hleads
  obtain ⟨idx, hstack⟩ := hr.stopped.stack
  have hplug := hr.ends.plug
  rw [hr.tree] at hplug hstack
  rw [hpath] at hplug hstack
  subst hplug
  have hh := hf.stores.holds
  have hst : Path.Stored h.rd [g] a := (Path.stored_plug.mp hh.stored).1
  have hshallow := hf.shallow _ rfl
  have hvalid : c.isValid h.rd = true := by
    rw [isValid_eq, hf.shown]
    rfl
  have hpre : s.prefixLen = 0 := by
    rw [hr.ends.prefixLen, hr.tree, Tree.label, getPrefix_self, hsuffix]
    rfl
  have hknown := hr.stopped.known
  rw [hpath] at hknown
  have hstr : Path.str [g] = [] := by
    rw [Path.str_cons, hnil]
    rfl
  have hrest : c.restKey = [] := by
    rw [hr.stopped.restKey]
    exact (hr.ends.hit hr.tree rfl).2
  have hpop : c.pop.branchKey = c.branchKey ∧ Backs h c.pop g [] a (a :: o) True := by
    apply backs_pop hh.uses_plug hst hwf hstack hknown _ hrest
    . intro _
      rw [hstr]
      exact ⟨List.nil_prefix, by decide, rfl⟩
    . rw [hr.root, Path.addr_plug]
      rfl
  obtain ⟨hbk, hb⟩ := hpop
  have hpre0 : s.prefixLen = 0 ↔ g.branch = none := iff_of_true hpre hbranch
  have hne : g.left ++ g.right ≠ [] := by
    intro heq
    rw [heq] at hmany
    cases hmany
  obtain ⟨h1, c1, m1, heq, hproceeds, hcomes⟩ := reduceArray_comes hb hpre0 hne (fun _ => hmany)
  have hremove : Cursor.remove h c = .ok (h1.free a, c1) := by
    rw [Cursor.remove, if_pos hvalid, hstack, removeNode_cons hb _ rfl]
    rcases hlr : g.left ++ g.right with _ | ⟨y, _ | ⟨z, arr⟩⟩
    . exact absurd hlr hne
    . rw [hlr] at hmany
      simp at hmany
    . rw [heq]
      rfl
  refine ⟨?_, ?_⟩
  . rw [Outcome] at hout
    split at hout
    . next hfits => exact hfits
    . rw [hout] at hremove
      cases hremove
  . have hfree := hproceeds.free
    have hshallow1 := hfree.shallow _ hshallow
    obtain ⟨l, hl, hskips⟩ := hcomes trivial hshallow1
    obtain ⟨arr, harr, rfl⟩ := hskips hbranch hnil
    rw [hleft, List.nil_append, hbk, List.length_nil] at harr
    have hsort : Branches.Sorted g.right := by
      have := Branches.sorted_remove hwf.2.1
      rwa [hleft, List.nil_append] at this
    obtain ⟨hmost, hrest⟩ := branchEntries_atMost hsort
      (fun x hx => (hwf.2.2.2.1 x hx).1) harr
    rw [← hes] at hmost hrest
    have hbehind : Path.before [] ++ Tree.behind (Path.str []) (Tree.branchEntries arr) =
        es.filter (atMost (c.branchKey 0)) := by
      rw [← hmost, Path.before, Path.str, List.nil_append, Tree.behind_nil_left]
    have hentries : m1.entries = es.filter (atMost (c.branchKey 0)) ++
        es.filter (fun e => !atMost (c.branchKey 0) e) := by
      rw [hfree.entries, ← hmost, ← hrest, ← Tree.branchEntries_append, harr, ← hes]
      have hafter := hr.after
      have hbefore := hr.before
      rw [hpath] at hafter hbefore
      rw [hafter, hbefore, List.nil_append]
    rw [hbehind] at hl
    exact ⟨h1.free a, c1, m1, hremove, hl.faces hfree.stores hshallow1 hfree.root hentries⟩

/-- On the way to the empty key no branch key is written. -/
theorem branchKey_firstTop (rd : Addr → Node) (n : Nat) (c : Cursor)
    (hkey : (firstTop rd n c).currentKey = []) :
    (firstTop rd n c).branchKey = c.branchKey := by
  induction n generalizing c with
  | zero => rfl
  | succ n ih =>
    unfold firstTop at hkey ⊢
    cases hstack : c.stack with
    | nil => rfl
    | cons f fs =>
      rw [hstack] at hkey
      dsimp only at hkey ⊢
      split at hkey
      . rfl
      . next t _ =>
        split at hkey
        . next hlt =>
          have hnil : (firstTop rd n ((({ c.appendKey t.compressed with
              stack := { f with prefixLen := t.len, cmp := 0, linkIdx := 0 } :: fs } : Cursor).push
                (t.link 0)))).currentKey = [] := hkey
          rw [hnil] at hlt
          cases hlt
        . next hlt =>
          rw [if_neg hlt]
          exact ih _ hkey

theorem branchKey_first_init {rd : Addr → Node} {root : Addr}
    (hshown : ((init root).first rd).shown? rd = some ([], v)) :
    ((init root).first rd).branchKey 0 = 0 := by
  have hkey : ((init root).first rd).currentKey = [] := by
    rw [shown?, Option.map_eq_some_iff] at hshown
    obtain ⟨_, -, heq⟩ := hshown
    exact (Prod.ext_iff.mp heq).1
  have hclear : (init root).clear.branchKey = fun _ => 0 := by
    unfold clear init
    dsimp only
    split <;> rfl
  unfold first at hkey ⊢
  split at hkey
  . next hroot =>
    rw [if_pos hroot, hclear]
  . next hroot =>
    rw [if_neg hroot, branchKey_firstTop rd _ _ hkey, hclear]

end Remove

/-! Leaves that have room for a longer string are never too big. -/

/-- The leaf of the entry fits into a page with as much of the key as a leaf can have. -/
def Small (e : Key × Value) : Prop := fitsPage (LeafNode.sizeOf 255 e.2.bytes.length) = true

theorem combineFits_of_small {p : Path} (hwf : Path.WF p)
    (hsmall : ∀ e ∈ Path.before p ++ Path.after p, Small e) : p.combineFits = true := by
  induction p with
  | nil => rfl
  | cons s p ih =>
    rw [Path.entries_around] at hsmall
    rw [Path.combineFits]
    rcases hlr : s.left ++ s.right with _ | ⟨⟨b, u⟩, _ | _⟩
    . apply ih hwf.2.2.2.2.2
      intro e he
      apply hsmall
      rw [hlr]
      simpa using he
    . obtain ⟨-, hu⟩ := wf_remaining hwf (y := (b, u)) (by simp [hlr])
      dsimp only at hu ⊢
      by_cases hlen : 255 < s.compressed.length + u.label.length
      . rw [decide_eq_true hlen, Bool.true_or]
      . have hle := Nat.le_of_not_lt hlen
        have hfits : fitsPage (u.sizeWith (s.compressed.length + u.label.length)) = true := by
          cases u with
          | leaf a k v =>
            have hmem : ((Path.str p ++ s.compressed) ++ k, v) ∈ Path.before p ++
                Tree.behind (Path.str p) (Tree.behind s.compressed
                  (Tree.branchEntries (s.left ++ s.right))) ++ Path.after p := by
              simp [hlr, Tree.behind]
            apply fitsPage_mono (hsmall _ hmem)
            unfold Tree.sizeWith LeafNode.sizeOf
            exact Nat.add_le_add_right (Nat.add_le_add_left hle _) _
          | node a k arr => exact Tree.fitsPage_sizeWith hu rfl hle
        rw [hfits, Bool.or_true]
    . rfl

theorem Placed.removeFits_of_small {h : Heap} {c : Cursor} {o : List Addr} {m : Trie}
    {e : Key × Value} (hc : c.Placed m) (hs : h.Stores m o) (hshown : c.shown? h.rd = some e)
    (hsmall : ∀ e ∈ m.entries, Small e) : removeFits h.rd c.stack = true := by
  obtain ⟨t, a, w, rfl, -, hstop, htree⟩ := hc.shown hs.valid hshown
  have hends := Tree.search_root_ends (hs.valid.wf t rfl) e.1
  obtain ⟨idx, hstack⟩ := hstop.stack
  have hplug := hends.plug
  rw [htree] at hplug
  obtain ⟨hpst, -⟩ := Path.stored_plug.mp (hplug ▸ hs.valid.stored t rfl)
  obtain ⟨hpwf, -, -⟩ := Path.wf_plug.mp (hplug ▸ hs.valid.wf t rfl)
  rw [hstack, removeFits_eq hpst hpwf]
  apply combineFits_of_small hpwf
  intro x hx
  apply hsmall
  rw [Trie.entries, ← hplug, Path.entries_plug]
  rw [List.mem_append] at hx
  rw [List.mem_append, List.mem_append]
  tauto

end Cursor
end Leaves
