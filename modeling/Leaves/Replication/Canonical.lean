import Leaves.Db.Refinement
import Leaves.Replication.Hash

/-!
Databases with the same short keys have the same trie, however it came about, and with the same
values the same hash trie.
-/

namespace Leaves

namespace HashTree

/-- The hashes without the pages they are stored in and the transactions they are from. -/
def hashes : HashTree → HashTree
  | .leaf p k => .leaf ⟨none, 0, p.hash⟩ k
  | .node p c arr => .node ⟨none, 0, p.hash⟩ c (go arr)
where
  go : List (Branch × HashTree) → List (Branch × HashTree)
    | [] => []
    | (b, t) :: arr => (b, t.hashes) :: go arr

theorem hashes_go_eq (arr : List (Branch × HashTree)) :
    hashes.go arr = Branches.mapSnd hashes arr := by
  induction arr with
  | nil => rfl
  | cons x arr ih => rw [hashes.go, ih, Branches.mapSnd_cons]

theorem hash_hashes (t : HashTree) : t.hashes.page.hash = t.page.hash := by
  cases t with
  | leaf p k => rw [hashes, page, page]
  | node p c arr => rw [hashes, page, page]

end HashTree

namespace Tree

variable (blake3 : List UInt8 → List UInt8) (db db' : HashSource)

/-- The suffixes of the leaves with the bytes of their values. -/
def data (t : Tree) : List (Key × List UInt8) := t.entries.map fun e => (e.1, db.content e.2)

/-- The same below the branches of a node. -/
theorem hashes_deepCopy_branches {arr arr' : List (Branch × Tree)} {p : Key}
    (hshape : Branches.mapSnd shape arr = Branches.mapSnd shape arr')
    (hdata : (branchEntries arr).map (fun e => (e.1, db.content e.2)) =
      (branchEntries arr').map (fun e => (e.1, db'.content e.2)))
    (ih : ∀ x ∈ arr, ∀ x' ∈ arr', x.2.shape = x'.2.shape → x.2.data db = x'.2.data db' →
      (HashTree.deepCopy blake3 db p x.2).hashes = (HashTree.deepCopy blake3 db' p x'.2).hashes) :
    Branches.mapSnd HashTree.hashes (Branches.mapSnd (HashTree.deepCopy blake3 db p) arr) =
      Branches.mapSnd HashTree.hashes (Branches.mapSnd (HashTree.deepCopy blake3 db' p) arr') := by
  induction arr generalizing arr' with
  | nil =>
    cases arr' with
    | nil => rfl
    | cons x' arr' => cases hshape
  | cons x arr iharr =>
    cases arr' with
    | nil => cases hshape
    | cons x' arr' =>
      rw [Branches.mapSnd_cons, Branches.mapSnd_cons, List.cons.injEq, Prod.mk.injEq] at hshape
      obtain ⟨⟨hbranch, hfirst⟩, hrest⟩ := hshape
      rw [branchEntries_cons, branchEntries_cons, List.map_append, List.map_append] at hdata
      obtain ⟨hdata, hbelow⟩ := List.append_inj hdata (by
        rw [List.length_map, List.length_map, length_entries_of_shape hfirst])
      simp only [Branches.mapSnd_cons, List.cons.injEq, Prod.mk.injEq]
      refine ⟨⟨hbranch, ih x (by simp) x' (by simp) hfirst hdata⟩, iharr hrest hbelow ?_⟩
      intro y hy y' hy'
      exact ih y (List.mem_cons_of_mem _ hy) y' (List.mem_cons_of_mem _ hy')

/-- The hash trie follows from the shape and the bytes of the values. -/
theorem hashes_deepCopy {t t' : Tree} (p : Key) (hshape : t.shape = t'.shape)
    (hdata : t.data db = t'.data db') :
    (HashTree.deepCopy blake3 db p t).hashes = (HashTree.deepCopy blake3 db' p t').hashes := by
  induction t using Tree.induct generalizing p t' with
  | leaf a k v =>
    cases t' with
    | node a' c' arr' =>
      rw [shape_leaf, shape_node] at hshape
      cases hshape
    | leaf a' k' v' =>
      simp only [data, entries_leaf, List.map_cons, List.map_nil, List.cons.injEq, Prod.mk.injEq,
        and_true] at hdata
      obtain ⟨rfl, hcontent⟩ := hdata
      simp only [HashTree.deepCopy_leaf, HashTree.createLeafHash, HashTree.hashes, hcontent]
  | node a c arr ih =>
    cases t' with
    | leaf a' k' v' =>
      rw [shape_leaf, shape_node] at hshape
      cases hshape
    | node a' c' arr' =>
      rw [shape_node, shape_node, Shape.node.injEq] at hshape
      obtain ⟨rfl, harr⟩ := hshape
      have hbelow : (branchEntries arr).map (fun e => (e.1, db.content e.2)) =
          (branchEntries arr').map (fun e => (e.1, db'.content e.2)) := by
        simp only [data, entries_node, behind, List.map_map] at hdata
        have hinj : Function.Injective fun e : Key × List UInt8 => (c ++ e.1, e.2) := by
          intro e f h
          simp only [Prod.mk.injEq, List.append_cancel_left_eq] at h
          exact Prod.ext h.1 h.2
        apply List.map_injective_iff.mpr hinj
        rw [List.map_map, List.map_map]
        exact hdata
      have hchildren := hashes_deepCopy_branches blake3 db db' (p := p ++ c) harr hbelow
        fun x hx x' _ hs hd => ih x hx (p ++ c) hs hd
      have hconcat : ∀ l : List (Branch × HashTree), (l.flatMap fun x => x.2.page.hash) =
          (Branches.mapSnd HashTree.hashes l).flatMap fun x => x.2.page.hash := by
        intro l
        rw [Branches.mapSnd, List.flatMap_map]
        simp only [HashTree.hash_hashes]
      simp only [HashTree.deepCopy_node, HashTree.createTrieHash, HashTree.hashes,
        HashTree.hashes_go_eq]
      rw [hconcat (Branches.mapSnd (HashTree.deepCopy blake3 db (p ++ c)) arr), hchildren, ← hconcat]

end Tree

namespace Trie

/-- The shape of the trie, if there is one. -/
def shape (t : Trie) : Option Shape := Option.map Tree.shape t

/-- What a rebuild makes of the trie. -/
def hashes (blake3 : List UInt8 → List UInt8) (db : HashSource) (t : Trie) : Option HashTree :=
  Option.map (fun t => (HashTree.deepCopy blake3 db [] t).hashes) t

/-- Branching tries with the same keys have one shape. -/
theorem shape_unique {rd rd' : Addr → Node} {t t' : Trie} (hv : t.Valid rd) (hv' : t'.Valid rd')
    (hb : t.Branching) (hb' : t'.Branching)
    (hkeys : t.entries.map (·.1) = t'.entries.map (·.1)) : t.shape = t'.shape := by
  match t, t' with
  | none, none => rfl
  | none, some u' =>
    have hne := Tree.keys_ne_nil (hv'.wf u' rfl)
    exact absurd hkeys.symm hne
  | some u, none =>
    have hne := Tree.keys_ne_nil (hv.wf u rfl)
    exact absurd hkeys hne
  | some u, some u' =>
    have hu := Tree.shape_unique (hv.wf u rfl) (hv'.wf u' rfl) (hb u rfl) (hb' u' rfl) hkeys
    exact congrArg some hu

theorem hashes_eq (blake3 : List UInt8 → List UInt8) {db db' : HashSource} {t t' : Trie}
    (hshape : t.shape = t'.shape)
    (hdata : t.entries.map (fun e => (e.1, db.content e.2)) =
      t'.entries.map (fun e => (e.1, db'.content e.2))) :
    t.hashes blake3 db = t'.hashes blake3 db' := by
  match t, t' with
  | none, none => rfl
  | none, some u' => cases hshape
  | some u, none => cases hshape
  | some u, some u' =>
    have hu := Tree.hashes_deepCopy blake3 db db' [] (Option.some.inj hshape) hdata
    exact congrArg some hu

end Trie

namespace Edit

open OrdMap (Related)

/-- The keys of a history that are stored are short. -/
def Short : Edit → Prop
  | .value key _ => key.length ≤ MAX_KEY_SIZE → key.length ≤ 255
  | .remove _ => True
  | .nextTransaction _ => True

/-- The bytes of the values of a map. -/
def bytes (m : List (Key × Content)) : List (Key × List UInt8) := m.map fun e => (e.1, e.2.data)

/-- The database finds the bytes of the values of the map, be they in the leaf or not. -/
def Finds (db : HashSource) (m : List (Key × Content)) : Prop :=
  ∀ e ∈ m, ∀ n, db.content (storedValue n e.2) = e.2.data

/-- As `Represents`, and the trie branches at every node. -/
def RepresentsBranching (h : Heap) (root : Addr) (m : List (Key × Content)) (o : List Addr) : Prop :=
  ∃ t : Trie, h.Stores t o ∧ root = t.root ∧
    Related (fun v w => ∃ n, v = storedValue n w) t.entries m ∧ t.Branching ∧
    ∀ e ∈ m, e.1.length ≤ 255

section Histories

variable {h h' : Heap} {root root' : Addr} {m m' : List (Key × Content)} {o o' : List Addr}

theorem RepresentsBranching.represents (hr : RepresentsBranching h root m o) :
    Represents h root m o := by
  obtain ⟨t, hs, hroot, hrel, -, -⟩ := hr
  exact ⟨t, hs, hroot, hrel⟩

/-- The keys of the trie are those of the map. -/
theorem short_entries {t : Trie}
    (hrel : Related (fun v w => ∃ n, v = storedValue n w) t.entries m)
    (hshort : ∀ e ∈ m, e.1.length ≤ 255) : ∀ e ∈ t.entries, e.1.length ≤ 255 := by
  intro e he
  have hmem : e.1 ∈ m.map (·.1) := by
    rw [← hrel.keys]
    exact List.mem_map_of_mem he
  obtain ⟨e', he', heq⟩ := List.mem_map.mp hmem
  rw [← heq]
  exact hshort e' he'

/-- The bytes that are hashed are those of the map. -/
theorem data_entries {t : Trie} {db : HashSource}
    (hrel : Related (fun v w => ∃ n, v = storedValue n w) t.entries m) (hdb : Finds db m) :
    t.entries.map (fun e => (e.1, db.content e.2)) = bytes m := by
  apply hrel.map_eq
  rintro y hy v ⟨n, rfl⟩
  exact hdb y hy n

/-- A change with a short key leaves a branching trie branching. -/
theorem exec_branching (hr : RepresentsBranching h root m o) {e : Edit} (hshort : e.Short)
    (hfits : fits h root e = true) :
    (∃ h' root', exec h root e = .ok (h', root') ∧ RepresentsBranching h' root' (e.apply m) o) ∨
    ∃ fault, exec h root e = .error fault ∧ fault ≠ .pageOverflow ∧ e.apply m = m := by
  match e with
  | .value key v =>
    by_cases hlen : key.length ≤ MAX_KEY_SIZE
    . obtain ⟨t, hs, rfl, hrel, hbranching, hkeys⟩ := hr
      obtain ⟨n, hout⟩ := exec_value_changes hs hlen v
      rw [Changes, if_pos hfits] at hout
      obtain ⟨h', t', heq, hs', hentries, hkeeps⟩ := hout
      refine Or.inl ⟨h', t'.root, heq, t', hs', rfl, ?_, hkeeps hbranching (hshort hlen), ?_⟩
      . rw [apply, if_pos hlen, hentries]
        exact hrel.insert key ⟨n, rfl⟩
      . intro e he
        rw [apply, if_pos hlen] at he
        rcases OrdMap.mem_insert he with rfl | he
        . exact hshort hlen
        . exact hkeys e he
    . refine Or.inr ⟨.keyTooBig, ?_, by decide, by rw [apply, if_neg hlen]⟩
      rw [exec, find_of_gt hlen]
  | .remove key =>
    by_cases hlen : key.length ≤ MAX_KEY_SIZE
    . cases hkey : OrdMap.lookup m key with
      | none =>
        obtain ⟨hexec, herase⟩ := exec_remove_missing hr.represents hlen hkey
        exact Or.inr ⟨.noValidPosition, hexec, by decide, by rw [apply, if_pos hlen, herase]⟩
      | some v =>
        obtain ⟨t, hs, rfl, hrel, hbranching, hkeys⟩ := hr
        have hout := exec_remove_changes hs hlen (by rw [hrel.lookup_isSome, hkey]; rfl)
        rw [Changes, if_pos hfits] at hout
        obtain ⟨h', t', heq, hs', hentries, hkeeps⟩ := hout
        refine Or.inl ⟨h', t'.root, heq, t', hs', rfl, ?_,
          hkeeps hbranching (short_entries hrel hkeys), ?_⟩
        . rw [apply, if_pos hlen, hentries]
          exact hrel.erase key
        . intro e he
          rw [apply, if_pos hlen] at he
          exact hkeys e (OrdMap.mem_of_mem_erase he)
    . refine Or.inr ⟨.keyTooBig, ?_, by decide, by rw [apply, if_neg hlen]⟩
      rw [exec, find_of_gt hlen]
  | .nextTransaction oldest =>
    obtain ⟨t, hs, hroot, hrel, hbranching, hkeys⟩ := hr
    exact Or.inl ⟨_, root, rfl, t, stores_nextTransaction hs oldest, hroot, hrel, hbranching, hkeys⟩

/-- A history with short keys, whose changes fit. -/
theorem run_branching (hr : RepresentsBranching h root m o) {es : List Edit}
    (hshort : ∀ e ∈ es, e.Short) (hfits : runFits h root es = true) :
    ∃ h' root', run h root es = some (h', root') ∧
      RepresentsBranching h' root' (es.foldl apply m) o := by
  induction es generalizing h root m with
  | nil => exact ⟨h, root, rfl, hr⟩
  | cons e es ih =>
    rw [runFits, Bool.and_eq_true] at hfits
    obtain ⟨he, hes⟩ := hfits
    have hrest : ∀ e' ∈ es, e'.Short := fun e' he' => hshort e' (List.mem_cons_of_mem _ he')
    rw [run, List.foldl_cons]
    rcases exec_branching hr (hshort e List.mem_cons_self) he with
      ⟨h', root', heq, hr'⟩ | ⟨fault, heq, hne, hm⟩
    . rw [heq] at hes ⊢
      exact ih hr' hrest hes
    . rw [heq] at hes
      rw [heq, hm]
      cases fault with
      | pageOverflow => exact absurd rfl hne
      | noValidPosition => exact ih hr hrest hes
      | keyTooBig => exact ih hr hrest hes

theorem representsBranching_create (storage : Storage) :
    RepresentsBranching (Heap.create storage) 0 [] [] := by
  obtain ⟨t, hs, hroot, hrel⟩ := represents_create storage
  have hnone : t = none := by
    cases t with
    | none => rfl
    | some t => exact absurd hroot.symm (hs.valid.addr_ne t rfl)
  refine ⟨t, hs, hroot, hrel, ?_, by simp⟩
  rw [hnone]
  rintro _ ⟨⟩

/-- What the databases of two histories have in common. -/
def SameTries (storage storage' : Storage) (es es' : List Edit) : Prop :=
  ∃ h h' t t', run (Heap.create storage) 0 es = some (h, t.root) ∧
    run (Heap.create storage') 0 es' = some (h', t'.root) ∧ h.Stores t [] ∧ h'.Stores t' [] ∧
    t.shape = t'.shape ∧
    ∀ blake3 db db', Finds db (es.foldl apply []) → Finds db' (es'.foldl apply []) →
      t.hashes blake3 db = t'.hashes blake3 db'

end Histories

/-- Histories with short keys that end in the same map end in tries of the same shape and hashes. -/
theorem canonical (storage storage' : Storage) {es es' : List Edit} (hshort : ∀ e ∈ es, e.Short)
    (hshort' : ∀ e ∈ es', e.Short) (hsame : bytes (es.foldl apply []) = bytes (es'.foldl apply []))
    (hfits : runFits (Heap.create storage) 0 es = true)
    (hfits' : runFits (Heap.create storage') 0 es' = true) : SameTries storage storage' es es' := by
  obtain ⟨h, root, hrun, t, hs, rfl, hrel, hb, -⟩ :=
    run_branching (representsBranching_create storage) hshort hfits
  obtain ⟨h', root', hrun', t', hs', rfl, hrel', hb', -⟩ :=
    run_branching (representsBranching_create storage') hshort' hfits'
  have hkeys : t.entries.map (·.1) = t'.entries.map (·.1) := by
    have := congrArg (List.map (·.1)) hsame
    simp only [bytes, List.map_map] at this
    rw [hrel.keys, hrel'.keys]
    exact this
  have hshape := Trie.shape_unique hs.valid hs'.valid hb hb' hkeys
  refine ⟨h, h', t, t', hrun, hrun', hs, hs', hshape, ?_⟩
  intro blake3 db db' hdb hdb'
  apply Trie.hashes_eq blake3 hshape
  rw [data_entries hrel hdb, data_entries hrel' hdb', hsame]

/-- Another way to the map of `edits`. -/
def detour : List Edit :=
  [.value [0x61, 0x63] ⟨[9], []⟩, .value [0x61] ⟨[8], []⟩, .nextTransaction 1,
    .value [0x61] ⟨[1], []⟩, .remove [0x61, 0x63]]

theorem canonical_detour : SameTries areas areas edits detour :=
  canonical areas areas (by simp [edits, Short]) (by simp [detour, Short]) (by decide +kernel)
    (by decide +kernel) (by decide +kernel)

/-- A value that is a big one for a new key. -/
def largeValue : Content := ⟨List.replicate 4090 0, List.replicate 16 0⟩

def largeKey : Key := List.replicate 20 0x62

/-- It is none when the key has a value already, and then its leaf is bigger than a page. -/
theorem canonical_overwritten :
    ¬ ∀ (storage storage' : Storage) (es es' : List Edit), (∀ e ∈ es, e.Short) →
      (∀ e ∈ es', e.Short) → bytes (es.foldl apply []) = bytes (es'.foldl apply []) →
      SameTries storage storage' es es' := by
  intro h
  have hsame : ∀ v, bytes ([.value largeKey v].foldl apply []) =
      bytes ([.value largeKey ⟨[1], []⟩, .value largeKey v].foldl apply []) := fun _ => rfl
  obtain ⟨h1, h2, t1, t2, -, hrun, -⟩ := h areas areas [.value largeKey largeValue]
    [.value largeKey ⟨[1], []⟩, .value largeKey largeValue] (by simp [Short, largeKey])
    (by simp [Short, largeKey]) (hsame largeValue)
  have hnone : (run (Heap.create areas) 0
      [.value largeKey ⟨[1], []⟩, .value largeKey largeValue]).isNone = true := by
    decide +kernel
  rw [hrun] at hnone
  cases hnone

end Edit
end Leaves
