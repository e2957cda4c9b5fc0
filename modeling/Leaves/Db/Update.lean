import Leaves.Db.Heap
import Leaves.Db.Cursor
import Leaves.Trie.Pages

/-!
Following a changed node up to the root, `_Transition::update_offset` and `_Transition::update`. The
link to the node is written into its parent. A parent of an earlier transaction is copied before,
and the link to the copy is written into the parent above it.
-/

namespace Leaves

/-- Writing a link into the array of a trie node. -/
def Heap.setLink (h : Heap) (a : Addr) (idx : Nat) (addr : Addr) : Heap :=
  match h.rd a with
  | .trie t => h.setNode a (.trie (t.setLink idx addr))
  | .leaf _ => h

/-- The copy-on-write of `update`: the node moves to a page of this transaction. -/
def Heap.copyNode (h : Heap) (a : Addr) : Except Fault (Addr × Heap) := do
  let page := h.page a
  let (copy, h) ← h.allocSlot page.slotId
  .ok (copy, (h.setPage copy { h.page copy with used := page.used, node := page.node }).free a)

/-- The copy of `copyNode`, before the node is freed. -/
def Heap.copyPage (h : Heap) (a : Addr) : Except Fault (Addr × Heap) := do
  let page := h.page a
  let (copy, h) ← h.allocSlot page.slotId
  .ok (copy, h.setPage copy { h.page copy with used := page.used, node := page.node })

theorem Heap.copyPage_allocates {h : Heap} {l : List Addr} {a : Addr} (hu : h.Uses l)
    (ha : a ∈ l) :
    ∃ copy h', h.copyPage a = .ok (copy, h') ∧ h.copyNode a = .ok (copy, h'.free a) ∧
      h.Allocates l copy h' ∧ h'.rd copy = h.rd a := by
  obtain ⟨copy, h1, heq, halloc, -, -⟩ := Heap.allocSlot_allocates hu (hu.slot a ha)
  have hset := Heap.setPage_allocates halloc
    { h1.page copy with used := (h.page a).used, node := (h.page a).node } rfl rfl
  exact ⟨copy, _, by rw [Heap.copyPage, heq]; rfl, by rw [Heap.copyNode, heq]; rfl, hset,
    by simp [Heap.rd]⟩

/--
`update_offset` for the transition above the `fs`: `addr` is the new place of its node. What is in
`fs` is changed by `update`.
-/
def relink (h : Heap) (root : Addr) : List Transition → Addr →
    Except Fault (Heap × Addr × List Transition)
  | [], addr => .ok (h, addr, [])
  | f :: fs, addr =>
    if h.needsCow f.node then do
      let (copy, h) ← h.copyNode f.node
      let (h, root, fs) ← relink h root fs copy
      .ok (h.setLink copy f.linkIdx addr, root, { f with node := copy } :: fs)
    else
      .ok (h.setLink f.node f.linkIdx addr, root, f :: fs)

/-- The transitions stand for the steps of the path. -/
def Carries (fs : List Transition) (p : Path) : Prop :=
  List.Forall₂ (fun f s => f.node = s.addr ∧ f.linkIdx = s.left.length) fs p

/-- The transitions with the addresses of a path. -/
def readdress (fs : List Transition) (p : Path) : List Transition :=
  List.zipWith (fun f s => { f with node := s.addr }) fs p

theorem readdress_of_carries {fs : List Transition} {p : Path} (h : Carries fs p) :
    readdress fs p = fs := by
  induction h with
  | nil => rfl
  | cons hf _ ih =>
    rw [readdress] at ih ⊢
    rw [List.zipWith_cons_cons, ih, ← hf.1]

theorem Carries.twin {fs : List Transition} {p p' : Path} (h : Carries fs p) (ht : p.Twin p') :
    Carries (readdress fs p') p' := by
  induction h generalizing p' with
  | nil =>
    cases ht
    exact List.Forall₂.nil
  | cons hf _ ih =>
    cases ht with
    | cons hs ht => exact List.Forall₂.cons ⟨rfl, by rw [hs]; exact hf.2⟩ (ih ht)

theorem setLink_eq {h : Heap} {a : Addr} {c : Key} {l r : List (Branch × Addr)} {b : Branch} {x : Addr}
    (hrd : h.rd a = .trie ⟨c, l ++ (b, x) :: r⟩) (y : Addr) :
    h.setLink a l.length y = h.setNode a (.trie ⟨c, l ++ (b, y) :: r⟩) := by
  have hmod : ∀ l : List (Branch × Addr),
      (l ++ (b, x) :: r).modify l.length (fun z => (z.1, y)) = l ++ (b, y) :: r := by
    intro l
    induction l with
    | nil => rfl
    | cons z l ih => simpa using ih
  rw [Heap.setLink, hrd]
  simp only [TrieNode.setLink, hmod]

/-- What `relink` does: the path leads to `a`, over nodes of this transaction where it is new. -/
structure Relinked (h : Heap) (p : Path) (a : Addr) (fs : List Transition) (o : List Addr) (h' : Heap)
    (root' : Addr) (fs' : List Transition) (p' : Path) : Prop where
  twin : p.Twin p'
  stored : p'.Stored h'.rd a
  uses : h'.Uses (p'.addrs ++ o)
  keeps : h.Keeps h'
  page : ∀ b ∈ o, h'.page b = h.page b
  root : root' = p'.top a
  frames : fs' = readdress fs p'

section Relink

variable {h : Heap} {s : Step} {p : Path} {a0 a : Addr} {o : List Addr}

/-- Writing the link of a node changes nothing but the node. -/
theorem setLink_path (hu : h.Uses (Path.addrs (s :: p) ++ o)) (hst : Path.Stored h.rd (s :: p) a0) :
    Path.Stored (h.setLink s.addr s.left.length a).rd (s :: p) a ∧
      (h.setLink s.addr s.left.length a).Uses (Path.addrs (s :: p) ++ o) ∧
      ∀ b, b ≠ s.addr → (h.setLink s.addr s.left.length a).page b = h.page b := by
  obtain ⟨h1, h2, h3, h4⟩ := hst
  have heq := setLink_eq h1 a
  rw [Branches.length_mapSnd] at heq
  have hnd := hu.nodup
  rw [Path.addrs_cons, List.cons_append, List.cons_append, List.nodup_cons] at hnd
  have hne : ∀ b ∈ Tree.branchAddrs s.left ++ Tree.branchAddrs s.right ++ Path.addrs p,
      (h.setLink s.addr s.left.length a).rd b = h.rd b := by
    intro b hb
    rw [heq, Heap.rd_setNode, if_neg]
    rintro rfl
    exact hnd.1 (List.mem_append_left _ hb)
  refine ⟨⟨?_, ?_, ?_, ?_⟩, ?_, ?_⟩
  . rw [heq, Heap.rd_setNode, if_pos rfl]
  . exact Tree.stored_congr_branches h2 (fun b hb => hne b (by simp [hb]))
  . exact Tree.stored_congr_branches h3 (fun b hb => hne b (by simp [hb]))
  . exact h4.congr (fun b hb => hne b (by simp [hb]))
  . rw [heq]
    exact Heap.setNode_uses hu _ _
  . intro b hb
    rw [heq, Heap.page_setNode, if_neg hb]

/-- Writing the link of an own node. -/
theorem setLink_stored (hu : h.Uses (Path.addrs (s :: p) ++ o)) (hst : Path.Stored h.rd (s :: p) a0)
    (howned : h.needsCow s.addr = false) :
    Path.Stored (h.setLink s.addr s.left.length a).rd (s :: p) a ∧
      (h.setLink s.addr s.left.length a).Uses (Path.addrs (s :: p) ++ o) ∧
      h.Keeps (h.setLink s.addr s.left.length a) ∧
      ∀ b, b ≠ s.addr → (h.setLink s.addr s.left.length a).page b = h.page b := by
  obtain ⟨h1, h2, h3⟩ := setLink_path (a := a) hu hst
  have heq := setLink_eq hst.1 a
  rw [Branches.length_mapSnd] at heq
  refine ⟨h1, h2, ?_, h3⟩
  rw [heq]
  exact Heap.setNode_keeps howned _

/-- The copy of a node takes the place of the node. -/
theorem copyNode_uses (hu : h.Uses (Path.addrs (s :: p) ++ o)) :
    ∃ copy h', h.copyNode s.addr = .ok (copy, h') ∧
      h'.Uses (Path.addrs p ++
        (copy :: (Tree.branchAddrs s.left ++ Tree.branchAddrs s.right) ++ o)) ∧
      copy ∉ Path.addrs (s :: p) ++ o ∧ h.Keeps h' ∧ h'.needsCow copy = false ∧
      h'.rd copy = h.rd s.addr ∧ ∀ b, b ≠ copy → h'.page b = h.page b := by
  obtain ⟨copy, h1, -, heq, ha, hrd⟩ := Heap.copyPage_allocates hu (a := s.addr) (by simp)
  have hperm : (copy :: (Path.addrs (s :: p) ++ o)).Perm (s.addr :: (Path.addrs p ++
      (copy :: (Tree.branchAddrs s.left ++ Tree.branchAddrs s.right) ++ o))) := by
    refine List.perm_iff_count.mpr (fun x => ?_)
    simp only [Path.addrs_cons, List.count_append, List.count_cons]
    omega
  refine ⟨copy, _, heq, Heap.free_uses (ha.uses.perm hperm),
    (List.nodup_cons.mp ha.uses.nodup).1, ha.keeps.trans (Heap.free_keeps ha.uses.recycle _),
    ha.owned, hrd, ?_⟩
  intro b hb
  rw [Heap.page_free]
  exact ha.page b hb

end Relink

theorem relink_relinked {h : Heap} {p : Path} {fs : List Transition} {a0 a root : Addr} {o : List Addr}
    (hu : h.Uses (p.addrs ++ o)) (hst : p.Stored h.rd a0) (hfs : Carries fs p)
    (hroot : root = p.top a0) :
    ∃ h' root' fs' p', relink h root fs a = .ok (h', root', fs') ∧
      Relinked h p a fs o h' root' fs' p' := by
  induction p generalizing h fs a0 a o with
  | nil =>
    cases hfs
    exact ⟨h, a, [], [], rfl, .refl _, trivial, hu, .refl _, fun _ _ => rfl, rfl, rfl⟩
  | cons s p ih =>
    cases hfs with
    | @cons f _ fs _ hf hfs =>
      obtain ⟨hnode, hidx⟩ := hf
      rw [relink, hnode, hidx]
      cases howned : h.needsCow s.addr with
      | false =>
        obtain ⟨h1, h2, h3, h4⟩ := setLink_stored (a := a) hu hst howned
        refine ⟨_, root, f :: fs, s :: p, rfl, .refl _, h1, h2, h3, ?_, hroot, ?_⟩
        . intro b hb
          have hnd := hu.nodup
          rw [Path.addrs_cons, List.cons_append, List.cons_append, List.nodup_cons] at hnd
          refine h4 b ?_
          rintro rfl
          exact hnd.1 (List.mem_append_right _ hb)
        . exact (readdress_of_carries (List.Forall₂.cons ⟨hnode, hidx⟩ hfs)).symm
      | true =>
        obtain ⟨copy, h2, hcopy, hu2, hnew, hkeeps, hown2, hrd2, hpage2⟩ := copyNode_uses hu
        obtain ⟨hs1, hs2, hs3, hs4⟩ := hst
        have hne : ∀ b ∈ Path.addrs (s :: p) ++ o, h2.page b = h.page b :=
          fun b hb => hpage2 b (fun heq => hnew (heq ▸ hb))
        have hst2 : Path.Stored h2.rd p s.addr :=
          hs4.congr (fun b hb => by rw [Heap.rd, hne b (by simp [hb])]; rfl)
        obtain ⟨h3, root', fs', p', heq, hr⟩ := ih (a := copy) hu2 hst2 hfs hroot
        have hpage : ∀ b ∈ Tree.branchAddrs s.left ++ Tree.branchAddrs s.right ++ o,
            h3.page b = h.page b := by
          intro b hb
          rw [hr.page b (by simpa using Or.inr hb)]
          exact hne b (by simp only [List.mem_append] at hb; simp; tauto)
        have hrd : ∀ b ∈ Tree.branchAddrs s.left ++ Tree.branchAddrs s.right,
            h3.rd b = h.rd b := by
          intro b hb
          rw [Heap.rd, hpage b (List.mem_append_left _ hb)]
          rfl
        have hcopy3 : h3.page copy = h2.page copy := hr.page copy (by simp)
        let s' : Step := { s with addr := copy }
        have hu3 : h3.Uses (Path.addrs (s' :: p') ++ o) := by
          refine hr.uses.perm (List.perm_iff_count.mpr (fun x => ?_))
          simp only [Path.addrs_cons, List.count_append, List.count_cons, s']
          omega
        have hst3 : Path.Stored h3.rd (s' :: p') a0 := by
          refine ⟨?_, ?_, ?_, hr.stored⟩
          . rw [Heap.rd, hcopy3]
            exact hrd2.trans hs1
          . exact Tree.stored_congr_branches hs2 (fun b hb => hrd b (List.mem_append_left _ hb))
          . exact Tree.stored_congr_branches hs3 (fun b hb => hrd b (List.mem_append_right _ hb))
        have hown3 : h3.needsCow copy = false := by
          rw [Heap.needsCow, hcopy3, hr.keeps.txnId]
          exact hown2
        obtain ⟨k1, k2, k3, k4⟩ := setLink_stored (a := a) hu3 hst3 hown3
        refine ⟨h3.setLink copy s.left.length a, root', { f with node := copy } :: fs', s' :: p', ?_,
          List.Forall₂.cons rfl hr.twin, k1, k2, (hkeeps.trans hr.keeps).trans k3, ?_, hr.root, ?_⟩
        . simp only [hcopy, heq, bind, Except.bind, ↓reduceIte]
          rw [hidx]
        . intro b hb
          have hb2 : b ≠ copy := fun heq => hnew (heq ▸ List.mem_append_right _ hb)
          rw [k4 b hb2, hpage b (List.mem_append_right _ hb)]
        . rw [hr.frames]
          rfl

end Leaves
