import Leaves.Db.Edits
import Leaves.Db.Lemmas.Remove
import Leaves.Db.Navigation

/-!
The trie refines a map: changing the database changes the map it represents, unless a leaf gets
bigger than a page.
-/

namespace Leaves

open OrdMap (Related)

namespace Cursor

/-- The leaf that `put` is going to write fits into a page. -/
def putFits (rd : Addr → Node) (c : Cursor) (v : Content) : Bool :=
  let key :=
    match c.leaf? rd with
    | some l => l.key
    | none => lastPart c.restKey
  fitsPage (LeafNode.sizeOf key.length (storedValue c.restKey.length v).bytes.length)

/-- The leaf that `combine` is going to write, if it writes one, fits into a page. -/
def removeFits (rd : Addr → Node) : List Transition → Bool
  | _ :: g :: gs =>
    match rd g.node with
    | .leaf _ => true
    | .trie t =>
      match t.count with
      | 1 => removeFits rd (g :: gs)
      | 2 =>
        match rd (t.link (if g.linkIdx ≠ 0 then 0 else 1)) with
        | .leaf l =>
          let len := t.len + l.key.length
          255 < len || fitsPage (LeafNode.sizeOf len l.vsize)
        | .trie _ => true
      | _ => true
  | _ => true

end Cursor

namespace Edit

/-- The change does not write a leaf that is bigger than a page. -/
def fits (h : Heap) (root : Addr) : Edit → Bool
  | .value key v =>
    match (Cursor.init root).find h.rd key with
    | none => true
    | some c => c.putFits h.rd v
  | .remove key =>
    match (Cursor.init root).find h.rd key with
    | none => true
    | some c => !c.isValid h.rd || Cursor.removeFits h.rd c.stack
  | .nextTransaction _ => true

/-- No change of the run writes a leaf that is bigger than a page. -/
def runFits (h : Heap) (root : Addr) : List Edit → Bool
  | [] => true
  | e :: es =>
    e.fits h root &&
      match e.exec h root with
      | .ok (h, root) => runFits h root es
      | .error _ => runFits h root es

/--
A trie of the proper shape is stored under the root, each node in a page of its own, and its entries
are those of the map. The pages `o` are used by others.
-/
def Represents (h : Heap) (root : Addr) (m : List (Key × Content)) (o : List Addr) : Prop :=
  ∃ t : Trie, h.Stores t o ∧ root = t.root ∧
    Related (fun v w => ∃ n, v = storedValue n w) t.entries m

end Edit

namespace Cursor

section Fits

variable {h : Heap} {c : Cursor} {s : Stop} {t : Tree} {K : Key} {o : List Addr}

theorem removeFits_eq {p : Path} {f : Transition} {x : Addr} (hst : p.Stored h.rd x) (hwf : p.WF) :
    removeFits h.rd (f :: frames p) = p.combineFits := by
  induction p generalizing f x with
  | nil => rfl
  | cons s p ih =>
    have hrd : h.rd (taken s p).node = _ := hst.1
    have hcount : TrieNode.count ⟨s.compressed,
        Branches.mapSnd Tree.addr s.left ++ (s.branch, x) :: Branches.mapSnd Tree.addr s.right⟩ =
        (s.left ++ s.right).length + 1 := by
      simp only [TrieNode.count, List.length_append, List.length_cons, Branches.length_mapSnd]
      omega
    rw [frames_cons, removeFits, Path.combineFits]
    simp only [hrd, hcount]
    rcases hrest : s.left ++ s.right with _ | ⟨y, _ | ⟨z, l⟩⟩
    . exact ih hst.2.2.2 hwf.2.2.2.2.2
    . obtain ⟨hlink, hy⟩ := link_remaining hst hrest
      obtain ⟨-, hywf⟩ := wf_remaining hwf (y := y) (by simp [hrest])
      have hroot := hy.root
      simp only [List.length_cons, List.length_nil, Nat.zero_add, Nat.reduceAdd, hlink]
      cases hyt : y.2 with
      | leaf a k v =>
        rw [hyt] at hroot
        simp only [hroot, Tree.root]
        rfl
      | node a k arr =>
        rw [hyt] at hroot hywf
        simp only [hroot, Tree.root]
        by_cases hlen : 255 < s.compressed.length + k.length
        . simp [Tree.label, hlen]
        . simp [Tree.label, Tree.fitsPage_sizeWith hywf rfl (Nat.le_of_not_lt hlen)]
    . rfl

theorem putFits_eq (hends : s.Ends t K) (hc : c.Stopped s) (hst : Tree.Stored h.rd t) (v : Content) :
    c.putFits h.rd v =
      fitsPage (LeafNode.sizeOf (newLeafKey s).length (storedValue s.rest.length v).bytes.length) := by
  obtain ⟨idx, hstack⟩ := hc.stack
  have hroot := (Path.stored_plug.mp (hends.plug ▸ hst)).2.root
  rw [putFits, leaf?, hstack, hc.restKey, newLeafKey]
  simp only [hroot]
  cases htree : s.tree with
  | leaf a k w =>
    simp only [Tree.root, Tree.label]
    by_cases hcmp : s.cmp = 0
    . rw [if_pos hcmp, if_pos hcmp]
    . rw [if_neg hcmp, if_neg hcmp]
  | node a k arr =>
    simp only [Tree.root, if_neg (hends.cmp_ne_zero htree)]

/-- A new cursor finds what the search finds. -/
theorem find_init {m : Trie} (hs : h.Stores m o) {key : Key} (hlen : key.length ≤ MAX_KEY_SIZE) :
    ∃ c, (init m.root).find h.rd key = some c ∧ c.root = m.root ∧
      (m = none → c.stack = [] ∧ c.currentKey = [] ∧ c.restKey = key) ∧
      ∀ t, m = some t → c.Stopped (t.search [] key) := by
  have hfind : (init m.root).find h.rd key = some (findRest h.rd { init m.root with restKey := key }) := by
    rw [find_of_le hlen, if_pos (by rfl)]
  match m with
  | none =>
    refine ⟨_, hfind, rfl, ?_, by simp⟩
    intro _
    have hroot : (init (Trie.root none)).root = 0 := rfl
    rw [findRest]
    simp only [hroot, ↓reduceIte]
    exact ⟨rfl, rfl, rfl⟩
  | some t =>
    have hstop := findRest_stopped (c := { init (Trie.root (some t)) with restKey := key }) rfl
      (hs.valid.addr_ne t rfl) rfl rfl (hs.valid.stored t rfl) (hs.valid.wf t rfl) hlen
    refine ⟨_, hfind, hstop.2, by simp, ?_⟩
    rintro _ ⟨rfl⟩
    exact hstop.1

/-- A change of the value of a key, from the place a new cursor has found. -/
theorem put_init {m : Trie} (hs : h.Stores m o) {key : Key} (hlen : key.length ≤ MAX_KEY_SIZE)
    (v : Content) :
    ∃ c n, (init m.root).find h.rd key = some c ∧
      Outcome (c.put h v) (c.putFits h.rd v) fun h' c' t' =>
        h'.Stores (some t') o ∧ t'.entries = OrdMap.insert m.entries key (storedValue n v) ∧
          c'.root = t'.addr ∧ (m.Branching → key.length ≤ 255 → t'.Branching) := by
  obtain ⟨c, hfind, hroot, hnone, hsome⟩ := find_init hs hlen
  match m with
  | none =>
    obtain ⟨hstack, hcur, hrest⟩ := hnone rfl
    refine ⟨c, key.length, hfind, ?_⟩
    have hfits : c.putFits h.rd v = fitsPage (LeafNode.sizeOf (lastPart c.restKey).length
        (storedValue c.restKey.length v).bytes.length) := by
      rw [putFits, leaf?, hstack]
    rw [hfits, put]
    refine (value_first (v := storedValue c.restKey.length v) (o := o) hs.uses hroot
      hstack hcur).mono fun h' c' t' hw => ?_
    have hentries := hw.entries
    rw [hrest] at hentries
    have hbranching := hw.branching trivial
    rw [hrest] at hbranching
    exact ⟨hw.holds.stores, hentries, hw.root, fun _ => hbranching⟩
  | some t =>
    have hc := hsome t rfl
    have hends := Tree.search_root_ends (hs.valid.wf t rfl) key
    refine ⟨c, (t.search [] key).rest.length, hfind, ?_⟩
    rw [putFits_eq hends hc (hs.valid.stored t rfl), put, hc.restKey]
    exact (value_outcome hs.holds hends hc hroot).mono fun h' c' t' hw =>
      ⟨hw.holds.stores, hw.entries, hw.root, fun hold => hw.branching (hold t rfl)⟩

/-- A new cursor is valid if the trie has the key, and then may remove it. -/
theorem remove_init {m : Trie} (hs : h.Stores m o) {key : Key} (hlen : key.length ≤ MAX_KEY_SIZE) :
    ∃ c, (init m.root).find h.rd key = some c ∧
      c.isValid h.rd = (OrdMap.lookup m.entries key).isSome ∧
      (c.isValid h.rd = true →
        Outcome (c.remove h) (removeFits h.rd c.stack) fun h' c' m' =>
          h'.Stores m' o ∧ m'.entries = OrdMap.erase m.entries key ∧ c'.root = m'.root ∧
            (m.Branching → (∀ e ∈ m.entries, e.1.length ≤ 255) → m'.Branching)) := by
  obtain ⟨c, hfind, hroot, hnone, hsome⟩ := find_init hs hlen
  refine ⟨c, hfind, ?_⟩
  match m with
  | none =>
    have hvalid : c.isValid h.rd = false := by rw [isValid, (hnone rfl).1]
    exact ⟨hvalid, by simp [hvalid]⟩
  | some t =>
    have hc := hsome t rfl
    have hwf := hs.valid.wf t rfl
    have hst := hs.valid.stored t rfl
    have hends := Tree.search_root_ends hwf key
    have hentry := hc.entry hends hst hwf
    rw [isValid_eq, hentry, OrdMap.entryAt, Option.bind_some, Option.isSome_map]
    refine ⟨rfl, fun hfound => ?_⟩
    rcases hends.hit_or_miss hwf with ⟨a, v, htree, -, -, -⟩ | ⟨-, hmiss⟩
    . obtain ⟨idx, hstack⟩ := hc.stack
      have hplug := hends.plug
      rw [hstack, removeFits_eq (Path.stored_plug.mp (hplug ▸ hst)).1
        (Path.wf_plug.mp (hplug ▸ hwf)).1]
      obtain ⟨hes, hout⟩ := remove_proceeds hs.holds hends hc hroot htree
      refine hout.mono fun h' c' m' hr => ⟨hr.stores, hr.entries.trans hes.symm, hr.root, ?_⟩
      intro hold hshort
      have hold := hold t rfl
      rw [← hplug, Path.branching_plug] at hold
      refine hr.branching hold.1 fun e he => hshort e ?_
      rw [Trie.entries, ← hplug, Path.entries_plug]
      simp only [List.mem_append] at he ⊢
      tauto
    . rw [hmiss] at hfound
      exact absurd hfound (by decide)

end Fits

end Cursor

namespace Edit

section Step

variable {h : Heap} {root : Addr} {m : List (Key × Content)} {o : List Addr} {key : Key}

/-- What a change makes of a trie: the map changes as it does, and a branching trie stays one. -/
def Changes (h : Heap) (root : Addr) (e : Edit) (o : List Addr) (short : Prop) (t : Trie)
    (es : List (Key × Value)) : Prop :=
  if fits h root e then
    ∃ h' t', exec h root e = .ok (h', t'.root) ∧ h'.Stores t' o ∧ t'.entries = es ∧
      (t.Branching → short → t'.Branching)
  else exec h root e = .error .pageOverflow

theorem exec_value_changes {t : Trie} (hs : h.Stores t o) (hlen : key.length ≤ MAX_KEY_SIZE)
    (v : Content) : ∃ n, Changes h t.root (.value key v) o (key.length ≤ 255) t
      (OrdMap.insert t.entries key (storedValue n v)) := by
  obtain ⟨c, n, hfind, hout⟩ := Cursor.put_init hs hlen v
  refine ⟨n, ?_⟩
  rw [Cursor.Outcome] at hout
  rw [Changes, fits, exec, hfind]
  dsimp only
  by_cases hfits : c.putFits h.rd v = true
  . rw [if_pos hfits] at hout
    obtain ⟨h', c', t', heq, hs', hentries, hroot, hbranching⟩ := hout
    rw [if_pos hfits, heq]
    refine ⟨h', some t', ?_, hs', hentries, ?_⟩
    . rw [Except.map, hroot]
      rfl
    . rintro hold hshort _ ⟨rfl⟩
      exact hbranching hold hshort
  . rw [if_neg hfits] at hout
    rw [if_neg hfits, hout]
    rfl

/-- Removing a key that is there. -/
theorem exec_remove_changes {t : Trie} (hs : h.Stores t o) (hlen : key.length ≤ MAX_KEY_SIZE)
    (hkey : (OrdMap.lookup t.entries key).isSome) :
    Changes h t.root (.remove key) o (∀ e ∈ t.entries, e.1.length ≤ 255) t
      (OrdMap.erase t.entries key) := by
  obtain ⟨c, hfind, hvalid, hout⟩ := Cursor.remove_init hs hlen
  rw [hkey] at hvalid
  replace hout := hout hvalid
  rw [Cursor.Outcome] at hout
  rw [Changes, fits, exec, hfind]
  simp only [hvalid, Bool.not_true, Bool.false_or]
  by_cases hfits : Cursor.removeFits h.rd c.stack = true
  . rw [if_pos hfits] at hout
    obtain ⟨h', c', t', heq, hs', hentries, hroot, hbranching⟩ := hout
    rw [if_pos hfits, heq]
    refine ⟨h', t', ?_, hs', hentries, hbranching⟩
    rw [Except.map, hroot]
  . rw [if_neg hfits] at hout
    rw [if_neg hfits, hout]
    rfl

theorem exec_value (hr : Represents h root m o) (hlen : key.length ≤ MAX_KEY_SIZE) (v : Content) :
    if fits h root (.value key v) then
      ∃ h' root', exec h root (.value key v) = .ok (h', root') ∧
        Represents h' root' (OrdMap.insert m key v) o
    else exec h root (.value key v) = .error .pageOverflow := by
  obtain ⟨t, hs, rfl, hrel⟩ := hr
  obtain ⟨n, hout⟩ := exec_value_changes hs hlen v
  rw [Changes] at hout
  split at hout
  next hfits =>
    obtain ⟨h', t', heq, hs', hentries, -⟩ := hout
    rw [if_pos hfits]
    refine ⟨h', t'.root, heq, t', hs', rfl, ?_⟩
    rw [hentries]
    exact hrel.insert key ⟨n, rfl⟩
  next hfits =>
    rw [if_neg hfits]
    exact hout

/-- Removing a key that is there. -/
theorem exec_remove (hr : Represents h root m o) (hlen : key.length ≤ MAX_KEY_SIZE)
    (hkey : (OrdMap.lookup m key).isSome) :
    if fits h root (.remove key) then
      ∃ h' root', exec h root (.remove key) = .ok (h', root') ∧
        Represents h' root' (OrdMap.erase m key) o
    else exec h root (.remove key) = .error .pageOverflow := by
  obtain ⟨t, hs, rfl, hrel⟩ := hr
  rw [← hrel.lookup_isSome] at hkey
  have hout := exec_remove_changes hs hlen hkey
  rw [Changes] at hout
  split at hout
  next hfits =>
    obtain ⟨h', t', heq, hs', hentries, -⟩ := hout
    rw [if_pos hfits]
    refine ⟨h', t'.root, heq, t', hs', rfl, ?_⟩
    rw [hentries]
    exact hrel.erase key
  next hfits =>
    rw [if_neg hfits]
    exact hout

/-- A key that is not there is not removed. -/
theorem exec_remove_missing (hr : Represents h root m o) (hlen : key.length ≤ MAX_KEY_SIZE)
    (hkey : OrdMap.lookup m key = none) :
    exec h root (.remove key) = .error .noValidPosition ∧ OrdMap.erase m key = m := by
  obtain ⟨t, hs, rfl, hrel⟩ := hr
  obtain ⟨c, hfind, hvalid, -⟩ := Cursor.remove_init hs hlen
  rw [hrel.lookup_isSome, hkey] at hvalid
  refine ⟨?_, OrdMap.erase_of_lookup_eq_none (hrel.ascending hs.valid.ascending) hkey⟩
  rw [exec, hfind]
  dsimp only
  rw [Cursor.remove_invalid h hvalid]
  rfl

theorem find_of_gt {root : Addr} {rd : Addr → Node} (hlen : ¬ key.length ≤ MAX_KEY_SIZE) :
    (Cursor.init root).find rd key = none := by
  rw [Cursor.find, if_pos (Nat.lt_of_not_le hlen)]

/-- A transaction does not change the pages, more of them may be recycled. -/
theorem stores_nextTransaction {t : Trie} (hs : h.Stores t o) (oldest : Nat) :
    (h.nextTransaction oldest).Stores t o := by
  obtain ⟨hu, hv⟩ := hs
  refine ⟨⟨hu.sound, ?_, hu.nodup, hu.ne_zero, hu.not_avail, hu.slot⟩, hv⟩
  simp only [Heap.nextTransaction]
  omega

theorem represents_nextTransaction (hr : Represents h root m o) (oldest : Nat) :
    Represents (h.nextTransaction oldest) root m o := by
  obtain ⟨t, hs, hroot, hrel⟩ := hr
  exact ⟨t, stores_nextTransaction hs oldest, hroot, hrel⟩

/-- A change that fits changes the map or is refused. -/
theorem exec_represents (hr : Represents h root m o) {e : Edit} (hfits : fits h root e = true) :
    (∃ h' root', exec h root e = .ok (h', root') ∧ Represents h' root' (e.apply m) o) ∨
    ∃ fault, exec h root e = .error fault ∧ fault ≠ .pageOverflow ∧ e.apply m = m := by
  match e with
  | .value key v =>
    by_cases hlen : key.length ≤ MAX_KEY_SIZE
    . have hexec := exec_value hr hlen v
      rw [if_pos hfits] at hexec
      rw [apply, if_pos hlen]
      exact Or.inl hexec
    . refine Or.inr ⟨.keyTooBig, ?_, by decide, by rw [apply, if_neg hlen]⟩
      rw [exec, find_of_gt hlen]
  | .remove key =>
    by_cases hlen : key.length ≤ MAX_KEY_SIZE
    . rw [apply, if_pos hlen]
      cases hkey : OrdMap.lookup m key with
      | none =>
        obtain ⟨hexec, herase⟩ := exec_remove_missing hr hlen hkey
        exact Or.inr ⟨.noValidPosition, hexec, by decide, herase⟩
      | some v =>
        have hexec := exec_remove hr hlen (by simp [hkey])
        rw [if_pos hfits] at hexec
        exact Or.inl hexec
    . refine Or.inr ⟨.keyTooBig, ?_, by decide, by rw [apply, if_neg hlen]⟩
      rw [exec, find_of_gt hlen]
  | .nextTransaction oldest =>
    exact Or.inl ⟨_, root, rfl, represents_nextTransaction hr oldest⟩

/-- A run of changes that fit. -/
theorem run_represents (hr : Represents h root m o) {es : List Edit}
    (hfits : runFits h root es = true) :
    ∃ h' root', run h root es = some (h', root') ∧ Represents h' root' (es.foldl apply m) o := by
  induction es generalizing h root m with
  | nil => exact ⟨h, root, rfl, hr⟩
  | cons e es ih =>
    rw [runFits, Bool.and_eq_true] at hfits
    obtain ⟨he, hes⟩ := hfits
    rw [run, List.foldl_cons]
    rcases exec_represents hr he with ⟨h', root', heq, hr'⟩ | ⟨fault, heq, hne, hm⟩
    . rw [heq] at hes ⊢
      exact ih hr' hes
    . rw [heq] at hes
      rw [heq, hm]
      cases fault with
      | pageOverflow => exact absurd rfl hne
      | noValidPosition => exact ih hr hes
      | keyTooBig => exact ih hr hes

theorem represents_create (storage : Storage) : Represents (Heap.create storage) 0 [] [] := by
  have hun : ∀ a, ¬ (Heap.create storage).mem.Uncarved a := by
    intro a ha
    simp only [Heap.create, MemManager.Uncarved] at ha
    omega
  have hq : ∀ a, ¬ (Heap.create storage).mem.Queued a := by
    rintro a ⟨s, item, hitem, -⟩
    simp [Heap.create] at hitem
  refine ⟨none, ⟨⟨⟨?_, ?_, ?_, ?_, ?_⟩, ?_, ?_, ?_, ?_, ?_⟩, ⟨by simp, by simp, by simp⟩⟩, rfl,
    List.Forall₂.nil⟩
  . intro s
    simp [Heap.create]
  . intro s s' _ x hx
    simp [Heap.create] at hx
  . exact fun a ha => absurd ha (hq a)
  . exact fun a ha => absurd ha (hun a)
  . intro a h1 h2
    simp only [Heap.create] at h1 h2
    omega
  . simp [Heap.create]
  . simp [Trie.addrs]
  . simp [Trie.addrs]
  . simp [Trie.addrs]
  . simp [Trie.addrs]

end Step

/-- From the place a new cursor has found, `value` stores exactly the changed map if and only if the
leaf that it writes fits into a page, and `remove` if and only if the leaf that it writes fits.
Every run of changes that fit represents the map an ordered map would hold. -/
theorem refinement {h : Heap} {root : Addr} {m : List (Key × Content)} {o : List Addr}
    (hr : Represents h root m o) :
    (∀ key v, key.length ≤ MAX_KEY_SIZE →
      ((∃ h' root', exec h root (.value key v) = .ok (h', root') ∧
        Represents h' root' (OrdMap.insert m key v) o) ↔ fits h root (.value key v) = true)) ∧
    (∀ key, key.length ≤ MAX_KEY_SIZE → (OrdMap.lookup m key).isSome →
      ((∃ h' root', exec h root (.remove key) = .ok (h', root') ∧
        Represents h' root' (OrdMap.erase m key) o) ↔ fits h root (.remove key) = true)) ∧
    (∀ es, runFits h root es = true →
      ∃ h' root', run h root es = some (h', root') ∧
        Represents h' root' (es.foldl apply m) o) := by
  refine ⟨?_, ?_, fun es hfits => run_represents hr hfits⟩
  . intro key v hlen
    have hexec := exec_value hr hlen v
    split at hexec
    next hfits => exact ⟨fun _ => hfits, fun _ => hexec⟩
    next hfits =>
      refine ⟨?_, fun h => absurd h hfits⟩
      rintro ⟨h', root', heq, -⟩
      rw [hexec] at heq
      cases heq
  . intro key hlen hkey
    have hexec := exec_remove hr hlen hkey
    split at hexec
    next hfits => exact ⟨fun _ => hfits, fun _ => hexec⟩
    next hfits =>
      refine ⟨?_, fun h => absurd h hfits⟩
      rintro ⟨h', root', heq, -⟩
      rw [hexec] at heq
      cases heq

theorem areas_pos (i : Nat) : 0 < (i + 1) * AREA_SIZE := by
  apply Nat.mul_pos (Nat.succ_pos i)
  decide

theorem areas_disjoint (i j : Nat) (h : i ≠ j) :
    (i + 1) * AREA_SIZE + AREA_SIZE ≤ (j + 1) * AREA_SIZE ∨
      (j + 1) * AREA_SIZE + AREA_SIZE ≤ (i + 1) * AREA_SIZE := by
  simp only [AREA_SIZE]
  omega

/-- Areas one behind the other. -/
def areas : Storage where
  area i := (i + 1) * AREA_SIZE
  pos := areas_pos
  disjoint := areas_disjoint

/-- The keys `a`, `ab` and `b`, the last two are removed again in the next transaction. -/
def edits : List Edit :=
  [.value [0x61] ⟨[1], []⟩, .value [0x61, 0x62] ⟨[2], []⟩, .value [0x62] ⟨[3], []⟩,
    .nextTransaction 1, .remove [0x61, 0x62], .remove [0x62], .remove [0x63]]

theorem refinement_edits :
    ∃ h root, run (Heap.create areas) 0 edits = some (h, root) ∧
      Represents h root (edits.foldl apply []) [] :=
  (refinement (represents_create areas)).2.2 edits (by decide +kernel)

/-- The leaf of a value of 4090 bytes is bigger than a page, yet the value is not a big one. -/
theorem refinement_overflow :
    ¬ ∀ h root m o key v, Represents h root m o → key.length ≤ MAX_KEY_SIZE →
      ∃ h' root', exec h root (.value key v) = .ok (h', root') ∧
        Represents h' root' (OrdMap.insert m key v) o := by
  intro h
  obtain ⟨data, hdata⟩ : ∃ data : List UInt8, data.length = 4090 :=
    ⟨List.replicate 4090 0, List.length_replicate⟩
  have hstored : storedValue 1 ⟨data, []⟩ = ⟨false, data⟩ := by
    rw [storedValue, if_pos]
    rw [modifySize, hdata]
    rfl
  have hfits : fits (Heap.create areas) 0 (.value [0x6b] ⟨data, []⟩) =
      fitsPage (LeafNode.sizeOf 1 (storedValue 1 ⟨data, []⟩).bytes.length) := rfl
  rw [hstored, hdata] at hfits
  obtain ⟨h', root', heq, -⟩ := h _ _ _ _ [0x6b] ⟨data, []⟩ (represents_create areas) (by decide)
  have hexec := exec_value (represents_create areas)
    (by decide : ([0x6b] : Key).length ≤ MAX_KEY_SIZE) ⟨data, []⟩
  rw [hfits, if_neg (by decide), heq] at hexec
  cases hexec

end Edit
end Leaves
