import Leaves.Db.Inserter
import Leaves.Db.Lemmas.Frames

/-!
Hanging a new leaf under an open branch of a trie: the nodes `create_bigkey` chains and the leaf
behind them.
-/

namespace Leaves
namespace Cursor

/-- The transitions of `q` on top of the path `p`. -/
def framesOn : Path → Path → List Transition
  | [], _ => []
  | s :: q, p => taken s (q ++ p) :: framesOn q p

theorem framesOn_append_singleton (q : Path) (s : Step) (p : Path) :
    framesOn (q ++ [s]) p = framesOn q (s :: p) ++ [taken s p] := by
  induction q with
  | nil => rfl
  | cons s' q ih => simp [framesOn, ih]

theorem length_framesOn (q p : Path) : (framesOn q p).length = q.length := by
  induction q with
  | nil => rfl
  | cons s q ih => simp [framesOn, ih]

theorem frames_append (q p : Path) : frames (q ++ p) = framesOn q p ++ frames p := by
  induction q with
  | nil => rfl
  | cons s q ih => simp [framesOn, ih]

/-- The last branch of a path is still to be written, in a node of this transaction. -/
structure Hole (h : Heap) (c : Cursor) (s : Step) (p : Path) (o : List Addr) : Prop where
  uses : h.Uses (Path.addrs (s :: p) ++ o)
  stored : Path.Stored h.rd (s :: p) 0
  wf : Path.WF (s :: p)
  owned : h.needsCow s.addr = false
  stack : ∃ f fs, c.stack = f :: fs ∧ f.node = s.addr ∧ f.linkIdx = s.left.length ∧
    fs.length = p.length
  currentKey : c.currentKey = Path.str (s :: p)
  known : Known c.branchKey (s :: p)
  leads : c.restKey.head? = s.branch

/-- The path has grown by `q` and nothing beside it. -/
structure Grown (h : Heap) (c : Cursor) (p : Path) (o : List Addr) (h' : Heap) (c' : Cursor)
    (q : Path) : Prop where
  keeps : h.Keeps h'
  page : ∀ b ∈ o, h'.page b = h.page b
  root : c'.root = c.root
  stack : c'.stack = framesOn q p ++ c.stack
  before : Path.before (q ++ p) = Path.before p
  after : Path.after (q ++ p) = Path.after p
  key : Path.str (q ++ p) ++ c'.restKey = Path.str p ++ c.restKey
  short : c.restKey.length ≤ 255 → q = []

theorem Grown.refl (h : Heap) (c : Cursor) (p : Path) (o : List Addr) : Grown h c p o h c [] :=
  ⟨.refl h, fun _ _ => rfl, rfl, rfl, rfl, rfl, rfl, fun _ => rfl⟩

section Link

variable {h h1 : Heap} {c : Cursor} {s : Step} {p : Path} {o : List Addr} {a : Addr}

/-- Writing the address of a new node into the open branch. -/
theorem Hole.link (hole : Hole h c s p o) (ha : h.Allocates (Path.addrs (s :: p) ++ o) a h1) :
    ∃ h2, pushLink h1 c a = (h2, c.push a) ∧ Path.Stored h2.rd (s :: p) a ∧
      h2.Uses (Path.addrs (s :: p) ++ (a :: o)) ∧ h.Keeps h2 ∧ h2.page a = h1.page a ∧
      h2.needsCow a = false ∧ ∀ b ∈ o, h2.page b = h.page b := by
  obtain ⟨f, fs, hstack, hnode, hidx, -⟩ := hole.stack
  have hst := hole.stored
  have hnd := List.nodup_cons.mp ha.uses.nodup
  have hne : ∀ b ∈ Path.addrs (s :: p) ++ o, b ≠ a := fun b hb heq => hnd.1 (heq ▸ hb)
  have hst1 : Path.Stored h1.rd (s :: p) 0 :=
    hst.congr (fun b hb => by rw [Heap.rd, ha.page b (hne b (List.mem_append_left _ hb))]; rfl)
  have hu1 : h1.Uses (Path.addrs (s :: p) ++ (a :: o)) :=
    ha.uses.perm List.perm_middle.symm
  have hown1 : h1.needsCow s.addr = false := by
    rw [Heap.needsCow, ha.page s.addr (hne s.addr (by simp)), ha.keeps.txnId]
    exact hole.owned
  obtain ⟨k1, k2, k3, k4⟩ := setLink_stored (a := a) hu1 hst1 hown1
  have hne2 : ∀ b ∈ o, b ≠ s.addr := by
    intro b hb heq
    have := hnd.2
    rw [Path.addrs_cons, List.cons_append, List.cons_append, List.nodup_cons] at this
    exact this.1 (heq ▸ List.mem_append_right _ hb)
  have hpa : (h1.setLink s.addr s.left.length a).page a = h1.page a :=
    k4 a (fun heq => hne s.addr (by simp) heq.symm)
  refine ⟨_, by simp only [pushLink, hstack, hnode, hidx], k1, k2, ha.keeps.trans k3, hpa, ?_, ?_⟩
  . rw [Heap.needsCow, hpa, k3.txnId]
    exact ha.owned
  . intro b hb
    rw [k4 b (hne2 b hb)]
    exact ha.page b (hne b (List.mem_append_right _ hb))

end Link

/-- A round of `create_bigkey`. -/
theorem createBigkey_step {h : Heap} {c : Cursor} {s : Step} {p : Path} {o : List Addr}
    (hole : Hole h c s p o) (hlen : 255 < c.restKey.length) :
    ∃ trie h1 h2 s1,
      h.allocNode (TrieNode.sizeMax 255 1) (bigkeyNode c.restKey) = .ok (trie, h1) ∧
      pushLink h1 c trie = (h2, c.push trie) ∧ Hole h2 (c.push trie).fillBigkey s1 (s :: p) o ∧
      Grown h c (s :: p) o h2 (c.push trie).fillBigkey [s1] ∧
      (c.push trie).fillBigkey.restKey = c.restKey.drop 255 := by
  obtain ⟨trie, h1, halloc, ha, hrd⟩ := Heap.allocNode_allocates hole.uses
    (n := TrieNode.sizeMax 255 1) (by decide) (bigkeyNode c.restKey)
  obtain ⟨h2, hpush, hst, hu, hkeeps, hpa, howned, hpage⟩ := hole.link ha
  let s1 : Step := ⟨trie, c.restKey.take 255, [], (c.restKey.drop 255).head?, []⟩
  obtain ⟨f, fs, hstack, -, -, hfs⟩ := hole.stack
  have hdepth : c.stack.length = (s :: p).length := by simp [hstack, hfs]
  have hrest : (c.restKey.take 255).length = 255 := by
    rw [List.length_take]
    omega
  obtain ⟨b, hb⟩ : ∃ b, (c.restKey.drop 255).head? = some b := by
    cases hd : c.restKey.drop 255 with
    | nil =>
      have := List.drop_eq_nil_iff.mp hd
      omega
    | cons b w => exact ⟨b, rfl⟩
  have hne : c.restKey.head? ≠ none := by
    intro hnone
    rw [List.head?_eq_none_iff] at hnone
    simp [hnone] at hlen
  refine ⟨trie, h1, h2, s1, halloc, hpush, ⟨?_, ⟨?_, by simp [s1], by simp [s1], hst⟩, ?_, howned,
    ?_, ?_, ?_, ?_⟩, ⟨hkeeps, hpage, rfl, ?_, ?_, ?_, ?_, fun hshort => by omega⟩, rfl⟩
  . refine hu.perm (List.perm_iff_count.mpr (fun x => ?_))
    simp only [Path.addrs_cons, List.count_append, List.count_cons, s1, Tree.branchAddrs_nil,
      List.count_nil]
    omega
  . rw [Heap.rd, hpa]
    exact hrd
  . refine ⟨by simp only [s1, hrest, Nat.le_refl], by simp [s1, Branches.Sorted], by simp [s1],
      by simp [s1], ?_, hole.wf⟩
    intro t
    have hhead : (c.restKey.take 255).head? = s.branch := by
      rw [← hole.leads]
      cases c.restKey <;> rfl
    refine ⟨hhead, ?_⟩
    intro hnone
    rw [hole.leads] at hne
    exact absurd hnone hne
  . exact ⟨_, c.stack, rfl, rfl, rfl, hdepth⟩
  . simp [fillBigkey, hole.currentKey, s1]
  . refine (hole.known.set_of_le (Nat.le_of_eq hdepth.symm)).cons ?_
    intro b' hb'
    have hb'' : (c.restKey.drop 255).head? = some b' := hb'
    simp [hdepth, hb'']
  . simp [fillBigkey, s1]
  . simp [fillBigkey, framesOn, taken, s1, hrest, hole.currentKey]
  . simp [Path.before, s1]
  . simp [Path.after, s1]
  . simp [fillBigkey, s1]

/-- What is left of a key after all rounds of `create_bigkey`. -/
def lastPart (rest : Key) : Key := rest.drop (255 * ((rest.length - 1) / 255))

theorem lastPart_of_le {rest : Key} (h : rest.length ≤ 255) : lastPart rest = rest := by
  have : (rest.length - 1) / 255 = 0 := by omega
  rw [lastPart, this]
  rfl

theorem lastPart_drop {rest : Key} (h : 255 < rest.length) :
    lastPart (rest.drop 255) = lastPart rest := by
  rw [lastPart, lastPart, List.drop_drop, List.length_drop]
  congr 1
  omega

theorem length_lastPart_le (rest : Key) : (lastPart rest).length ≤ 255 := by
  rw [lastPart, List.length_drop]
  omega

theorem createBigkey_grown {n : Nat} {h : Heap} {c : Cursor} {s : Step} {p : Path} {o : List Addr}
    (hole : Hole h c s p o) (hn : c.restKey.length ≤ n) :
    ∃ h' c' q s' p', createBigkey n h c = .ok (h', c') ∧ s' :: p' = q ++ s :: p ∧
      Hole h' c' s' p' o ∧ Grown h c (s :: p) o h' c' q ∧ c'.restKey = lastPart c.restKey := by
  induction n generalizing h c s p with
  | zero =>
    refine ⟨h, c, [], s, p, rfl, rfl, hole, .refl h c _ o, ?_⟩
    exact (lastPart_of_le (by omega)).symm
  | succ n ih =>
    rw [createBigkey]
    by_cases hlen : c.restKey.length ≤ 255
    . rw [if_pos hlen]
      exact ⟨h, c, [], s, p, rfl, rfl, hole, .refl h c _ o, (lastPart_of_le hlen).symm⟩
    . rw [if_neg hlen]
      obtain ⟨trie, h1, h2, s1, halloc, hpush, hole1, hgrown, hrest⟩ :=
        createBigkey_step hole (by omega)
      obtain ⟨h', c', q, s', p', heq, hp, hole', hgrown', hrest'⟩ :=
        ih hole1 (by rw [hrest, List.length_drop]; omega)
      refine ⟨h', c', q ++ [s1], s', p', ?_, by simpa using hp, hole', ?_, ?_⟩
      . simp only [halloc, bind, Except.bind, hpush]
        exact heq
      . have hassoc : q ++ [s1] ++ s :: p = q ++ s1 :: s :: p := by simp
        refine ⟨hgrown.keeps.trans hgrown'.keeps, ?_, hgrown'.root.trans hgrown.root, ?_, ?_, ?_,
          ?_, fun hshort => absurd hshort hlen⟩
        . intro b hb
          rw [hgrown'.page b hb, hgrown.page b hb]
        . rw [hgrown'.stack, hgrown.stack, framesOn_append_singleton, List.append_assoc]
          rfl
        . rw [hassoc, hgrown'.before]
          exact hgrown.before
        . rw [hassoc, hgrown'.after]
          exact hgrown.after
        . rw [hassoc, hgrown'.key]
          exact hgrown.key
      . rw [hrest', hrest]
        exact lastPart_drop (by omega)

/-- A leaf with the rest of the key hangs under the branch that was open. -/
structure Planted (h : Heap) (c : Cursor) (p : Path) (o : List Addr) (v : Value) (h' : Heap)
    (c' : Cursor) (q : Path) (a : Addr) : Prop where
  keeps : h.Keeps h'
  page : ∀ b ∈ o, h'.page b = h.page b
  uses : h'.Uses (((q ++ p).plug (.leaf a (lastPart c.restKey) v)).addrs ++ o)
  stored : Tree.Stored h'.rd ((q ++ p).plug (.leaf a (lastPart c.restKey) v))
  wf : ((q ++ p).plug (.leaf a (lastPart c.restKey) v)).WF
  entries : ((q ++ p).plug (.leaf a (lastPart c.restKey) v)).entries =
    p.before ++ (p.str ++ c.restKey, v) :: p.after
  root : c'.root = c.root
  stack : c'.stack =
    { node := a, prefixLen := (lastPart c.restKey).length, keypos := u16 (Path.str (q ++ p)).length,
      cmp := 0, linkIdx := NO_LINK } :: framesOn q p ++ c.stack
  restKey : c'.restKey = []
  currentKey : c'.currentKey = p.str ++ c.restKey
  known : Known c'.branchKey (q ++ p)
  key : Path.str (q ++ p) ++ lastPart c.restKey = p.str ++ c.restKey
  short : c.restKey.length ≤ 255 → q = []

theorem createLeaf_planted {h : Heap} {c : Cursor} {s : Step} {p : Path} {o : List Addr} {v : Value}
    (hole : Hole h c s p o)
    (hfits : fitsPage (LeafNode.sizeOf (lastPart c.restKey).length v.bytes.length) = true) :
    ∃ h' c' q a, createLeaf h c v = .ok (h', c') ∧ Planted h c (s :: p) o v h' c' q a := by
  obtain ⟨h1, c1, q, s', p', hbig, hp, hole1, hgrown, hrest⟩ :=
    createBigkey_grown hole (Nat.le_refl _)
  obtain ⟨a, h2, halloc, ha, hrd⟩ := Heap.allocNode_allocates hole1.uses hfits
    (.leaf ⟨lastPart c.restKey, v.big, v.bytes⟩)
  obtain ⟨h3, hpush, hst, hu, hkeeps, hpa, -, hpage⟩ := hole1.link ha
  have hleaf : (Tree.leaf a (lastPart c.restKey) v).addr = a := rfl
  have hfits' : Path.Fits (s' :: p') (.leaf a (lastPart c.restKey) v) :=
    ⟨by rw [← hole1.leads, hrest]; rfl, fun _ => rfl⟩
  rw [hp] at hst hu hfits'
  have hkey : Path.str (q ++ s :: p) ++ lastPart c.restKey = Path.str (s :: p) ++ c.restKey := by
    rw [← hrest]
    exact hgrown.key
  have hcur : c1.currentKey = Path.str (q ++ s :: p) := by
    rw [← hp]
    exact hole1.currentKey
  refine ⟨h3, (c1.push a).enterLeaf, q, a, ?_, hgrown.keeps.trans hkeeps, ?_, ?_, ?_, ?_, ?_,
    ?_, ?_, ?_, ?_, ?_, hkey, hgrown.short⟩
  . simp only [createLeaf, hbig, bind, Except.bind, fillLeaf, hrest, halloc, hpush]
  . intro b hb
    rw [hpage b hb, hgrown.page b hb]
  . have hperm := (Path.perm_plug (q ++ s :: p) (.leaf a (lastPart c.restKey) v)).symm.append_right o
    rw [Tree.addrs_leaf, List.append_assoc] at hperm
    exact hu.perm hperm
  . refine Path.stored_plug.mpr ⟨hst, Tree.stored_leaf.mpr ?_⟩
    rw [Heap.rd, hpa]
    exact hrd
  . refine Path.wf_plug.mpr ⟨hp ▸ hole1.wf, hfits', ?_⟩
    exact Tree.wf_leaf.mpr ⟨length_lastPart_le _, hfits⟩
  . rw [Path.entries_plug, hgrown.before, hgrown.after, Tree.entries_leaf]
    simp only [Tree.behind, List.map_cons, List.map_nil, hkey, List.append_assoc,
      List.singleton_append]
  . exact hgrown.root
  . simp [enterLeaf, hcur, hrest, hgrown.stack]
  . simp [enterLeaf]
  . simp only [enterLeaf, stack_push, currentKey_advanceKey, currentKey_push, restKey_push,
      List.take_length]
    rw [hcur, hrest, hkey]
  . rw [← hp]
    exact hole1.known

/-- There is no leaf for a value that does not fit into a page with the rest of its key. -/
theorem createLeaf_overflow {h : Heap} {c : Cursor} {s : Step} {p : Path} {o : List Addr}
    {v : Value} (hole : Hole h c s p o)
    (hfits : fitsPage (LeafNode.sizeOf (lastPart c.restKey).length v.bytes.length) = false) :
    createLeaf h c v = .error .pageOverflow := by
  obtain ⟨h1, c1, q, s', p', hbig, -, -, -, hrest⟩ := createBigkey_grown hole (Nat.le_refl _)
  simp only [createLeaf, hbig, bind, Except.bind, fillLeaf, hrest,
    Heap.allocNode_of_not_fits h1 hfits]

end Cursor
end Leaves
