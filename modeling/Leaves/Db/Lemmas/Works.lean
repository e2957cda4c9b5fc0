import Leaves.Db.Edits

/-!
What a change of the trie may do to the memory of its transaction: it takes pages, stamps them with
its id, and queues the pages it frees under its id.
-/

namespace Leaves

namespace Heap

/-- The work of one transaction on the memory. -/
structure Works (h h' : Heap) : Prop where
  txnId : h'.txnId = h.txnId
  startTxnId : h'.startTxnId = h.startTxnId
  storage : h'.storage = h.storage
  areaCount : h.areaCount ≤ h'.areaCount
  queued : ∀ s, ∀ x ∈ h'.mem.slots s, x ∈ h.mem.slots s ∨ x.txnId = h.txnId
  stamp : ∀ a, (h'.page a).txnId = (h.page a).txnId ∨ (h'.page a).txnId = h.txnId
  slot : ∀ a, (h'.page a).slotId = (h.page a).slotId ∨ (h'.page a).slotId < PAGE_SIZES_COUNT

theorem Works.refl (h : Heap) : h.Works h :=
  ⟨rfl, rfl, rfl, Nat.le_refl _, fun _ _ hx => Or.inl hx, fun _ => Or.inl rfl, fun _ => Or.inl rfl⟩

theorem Works.trans {h h' h'' : Heap} (h1 : h.Works h') (h2 : h'.Works h'') : h.Works h'' := by
  refine ⟨h2.txnId.trans h1.txnId, h2.startTxnId.trans h1.startTxnId,
    h2.storage.trans h1.storage, Nat.le_trans h1.areaCount h2.areaCount, ?_, ?_, ?_⟩
  . intro s x hx
    rcases h2.queued s x hx with hx | hx
    . exact h1.queued s x hx
    . exact Or.inr (hx.trans h1.txnId)
  . intro a
    rcases h2.stamp a with ha | ha
    . rw [ha]
      exact h1.stamp a
    . exact Or.inr (ha.trans h1.txnId)
  . intro a
    rcases h2.slot a with ha | ha
    . rw [ha]
      exact h1.slot a
    . exact Or.inr ha

/-- A header that is written keeps its stamp and its size class. -/
theorem setPage_works (h : Heap) (a : Addr) {page : Page} (htxn : page.txnId = (h.page a).txnId)
    (hslot : page.slotId = (h.page a).slotId) : h.Works (h.setPage a page) := by
  refine ⟨rfl, rfl, rfl, Nat.le_refl _, fun _ _ hx => Or.inl hx, fun b => ?_, fun b => ?_⟩
  . rw [page_setPage]
    split
    next heq => exact Or.inl (heq ▸ htxn)
    next => exact Or.inl rfl
  . rw [page_setPage]
    split
    next heq => exact Or.inl (heq ▸ hslot)
    next => exact Or.inl rfl

theorem setNode_works (h : Heap) (a : Addr) (node : Node) : h.Works (h.setNode a node) :=
  setPage_works h a rfl rfl

theorem setLink_works (h : Heap) (a : Addr) (idx : Nat) (addr : Addr) :
    h.Works (h.setLink a idx addr) := by
  unfold setLink
  split
  . exact setNode_works h a _
  . exact Works.refl h

theorem free_works (h : Heap) (a : Addr) : h.Works (h.free a) := by
  refine ⟨rfl, rfl, rfl, Nat.le_refl _, ?_, fun _ => Or.inl rfl, fun _ => Or.inl rfl⟩
  intro s x hx
  simp only [free, MemManager.free] at hx
  split at hx
  next =>
    rcases List.mem_append.mp hx with hx | hx
    . exact Or.inl hx
    . exact Or.inr (by rw [List.mem_singleton.mp hx])
  next => exact Or.inl hx

theorem mem_slots_alloc {m : MemManager} {sidx startTxnId area s : Nat} {x : BlockItem}
    (hx : x ∈ (m.alloc sidx startTxnId area).2.1.slots s) : x ∈ m.slots s := by
  have hcarve : ∀ bsize, (m.carve bsize area).2.1.slots = m.slots := by
    intro bsize
    unfold MemManager.carve
    split
    . rfl
    . split
      . exact MemManager.slots_saveLeftOver m
      . rfl
  unfold MemManager.alloc at hx
  split at hx
  next => rwa [hcarve] at hx
  next item items hitems =>
    split at hx
    next =>
      simp only at hx
      split at hx
      next heq =>
        rw [heq, hitems]
        exact List.mem_cons_of_mem _ hx
      next => exact hx
    next => rwa [hcarve] at hx

theorem allocSlot_works {h h' : Heap} {slot : Nat} {a : Addr} (heq : h.allocSlot slot = .ok (a, h')) :
    h.Works h' := by
  unfold allocSlot at heq
  split at heq
  next => cases heq
  next hslot =>
    simp only [Except.ok.injEq, Prod.mk.injEq] at heq
    obtain ⟨rfl, rfl⟩ := heq
    refine ⟨rfl, rfl, rfl, Nat.le_add_right _ _, ?_, fun b => ?_, fun b => ?_⟩
    . intro s x hx
      exact Or.inl (mem_slots_alloc hx)
    . rw [page_setPage]
      split
      . exact Or.inr rfl
      . exact Or.inl rfl
    . rw [page_setPage]
      split
      . exact Or.inr (Nat.lt_of_not_le hslot)
      . exact Or.inl rfl

theorem allocNode_works {h h' : Heap} {size : Nat} {node : Node} {a : Addr}
    (heq : h.allocNode size node = .ok (a, h')) : h.Works h' := by
  simp only [allocNode, bind, Except.bind] at heq
  split at heq
  next => cases heq
  next r hr =>
    simp only [Except.ok.injEq, Prod.mk.injEq] at heq
    obtain ⟨rfl, rfl⟩ := heq
    exact (allocSlot_works hr).trans (setPage_works _ _ rfl rfl)

theorem copyNode_works {h h' : Heap} {a copy : Addr} (heq : h.copyNode a = .ok (copy, h')) :
    h.Works h' := by
  simp only [copyNode, bind, Except.bind] at heq
  split at heq
  next => cases heq
  next r hr =>
    simp only [Except.ok.injEq, Prod.mk.injEq] at heq
    obtain ⟨rfl, rfl⟩ := heq
    apply Works.trans _ (free_works _ a)
    apply (allocSlot_works hr).trans
    exact setPage_works _ _ rfl rfl

end Heap

open Heap (Works)

theorem relink_works {h : Heap} {root : Addr} {fs : List Transition} {addr : Addr}
    {r : Heap × Addr × List Transition} (heq : relink h root fs addr = .ok r) : h.Works r.1 := by
  induction fs generalizing h addr r with
  | nil =>
    rw [relink, Except.ok.injEq] at heq
    rw [← heq]
    exact Works.refl h
  | cons f fs ih =>
    unfold relink at heq
    split at heq
    next =>
      simp only [bind, Except.bind] at heq
      split at heq
      next => cases heq
      next c hc =>
        split at heq
        next => cases heq
        next x hx =>
          rw [Except.ok.injEq] at heq
          rw [← heq]
          exact ((Heap.copyNode_works hc).trans (ih hx)).trans (Heap.setLink_works _ _ _ _)
    next =>
      rw [Except.ok.injEq] at heq
      rw [← heq]
      exact Heap.setLink_works _ _ _ _

namespace Cursor

variable {h : Heap} {c : Cursor} {f : Transition} {fs : List Transition} {v : Value}
  {r : Heap × Cursor}

theorem updateOffset_works {node : Addr} (heq : updateOffset h c f fs node = .ok r) :
    h.Works r.1 := by
  simp only [updateOffset, bind, Except.bind] at heq
  split at heq
  next => cases heq
  next x hx =>
    rw [Except.ok.injEq] at heq
    rw [← heq]
    exact relink_works hx

theorem pushLink_works (h : Heap) (c : Cursor) (addr : Addr) : h.Works (pushLink h c addr).1 := by
  unfold pushLink
  split
  . exact Works.refl h
  . exact Heap.setLink_works _ _ _ _

theorem createBigkey_works {n : Nat} (heq : createBigkey n h c = .ok r) : h.Works r.1 := by
  induction n generalizing h c with
  | zero =>
    rw [createBigkey, Except.ok.injEq] at heq
    rw [← heq]
    exact Works.refl h
  | succ n ih =>
    unfold createBigkey at heq
    split at heq
    next =>
      rw [Except.ok.injEq] at heq
      rw [← heq]
      exact Works.refl h
    next =>
      simp only [bind, Except.bind] at heq
      split at heq
      next => cases heq
      next x hx =>
        exact ((Heap.allocNode_works hx).trans (pushLink_works _ _ _)).trans (ih heq)

theorem fillLeaf_works {key : Key} {x : Addr × Heap} (heq : fillLeaf h key v = .ok x) :
    h.Works x.2 :=
  Heap.allocNode_works heq

theorem createLeaf_works (heq : createLeaf h c v = .ok r) : h.Works r.1 := by
  simp only [createLeaf, bind, Except.bind] at heq
  split at heq
  next => cases heq
  next x hx =>
    split at heq
    next => cases heq
    next y hy =>
      rw [Except.ok.injEq] at heq
      rw [← heq]
      exact ((createBigkey_works hx).trans (fillLeaf_works hy)).trans (pushLink_works _ _ _)

theorem replaceNode_works {trie : Addr} (heq : replaceNode h c f fs trie v = .ok r) :
    h.Works r.1 := by
  simp only [replaceNode, bind, Except.bind] at heq
  split at heq
  next => cases heq
  next x hx =>
    exact ((Heap.free_works h f.node).trans (updateOffset_works hx)).trans (createLeaf_works heq)

theorem firstExec_works (heq : firstExec h c f v = .ok r) : h.Works r.1 := by
  unfold firstExec at heq
  split at heq
  next =>
    simp only [bind, Except.bind] at heq
    split at heq
    next => cases heq
    next x hx => exact (Heap.allocNode_works hx).trans (createLeaf_works heq)
  next =>
    simp only [bind, Except.bind] at heq
    split at heq
    next => cases heq
    next x hx =>
      rw [Except.ok.injEq] at heq
      rw [← heq]
      exact fillLeaf_works hx

theorem copyReducedLeaf_works {a : Addr} {l : LeafNode} {splitPos : Nat} {x : Addr × Heap}
    (heq : copyReducedLeaf h a l splitPos = .ok x) : h.Works x.2 := by
  simp only [copyReducedLeaf, bind, Except.bind] at heq
  split at heq
  next => cases heq
  next y hy =>
    rw [Except.ok.injEq] at heq
    rw [← heq]
    apply (Heap.allocNode_works hy).trans
    split
    . exact Heap.setNode_works _ _ _
    . exact Works.refl _

theorem changeLeaf_works {l : LeafNode} (heq : changeLeaf h c f fs l v = .ok r) : h.Works r.1 := by
  unfold changeLeaf at heq
  split at heq
  next =>
    simp only [bind, Except.bind] at heq
    split at heq
    next => cases heq
    next x hx =>
      exact ((fillLeaf_works hx).trans (Heap.free_works _ _)).trans (updateOffset_works heq)
  next =>
    simp only [bind, Except.bind] at heq
    split at heq
    next => cases heq
    next x hx =>
      split at heq
      next => cases heq
      next y hy =>
        exact ((copyReducedLeaf_works hx).trans (Heap.allocNode_works hy)).trans
          (replaceNode_works heq)

theorem splitCompressed_works {t : TrieNode} (heq : splitCompressed h c f fs t v = .ok r) :
    h.Works r.1 := by
  simp only [splitCompressed, bind, Except.bind] at heq
  split at heq
  next => cases heq
  next x hx =>
    split at heq
    next => cases heq
    next y hy =>
      exact ((Heap.allocNode_works hx).trans (Heap.allocNode_works hy)).trans
        (replaceNode_works heq)

theorem addToArray_works {t : TrieNode} (heq : addToArray h c f fs t v = .ok r) :
    h.Works r.1 := by
  unfold addToArray at heq
  dsimp only at heq
  generalize (if c.restKey = [] then none else some (c.branchKey fs.length)) = key at heq
  split at heq
  next =>
    apply Works.trans _ (createLeaf_works heq)
    exact Heap.setPage_works h f.node rfl rfl
  next =>
    simp only [bind, Except.bind] at heq
    split at heq
    next => cases heq
    next x hx => exact (Heap.allocNode_works hx).trans (replaceNode_works heq)

theorem value_works (heq : value h c v = .ok r) : h.Works r.1 := by
  unfold value at heq
  split at heq
  next =>
    split at heq
    next => exact firstExec_works heq
    next => cases heq
  next =>
    unfold insertExec at heq
    split at heq
    next => exact changeLeaf_works heq
    next =>
      split at heq
      next => exact addToArray_works heq
      next => exact splitCompressed_works heq

theorem reduceArray_works {t : TrieNode} {prefixLen : Nat}
    (heq : reduceArray h c f fs t prefixLen = .ok r) : h.Works r.1 := by
  simp only [reduceArray, bind, Except.bind] at heq
  split at heq
  next => cases heq
  next x hx =>
    split at heq
    next => cases heq
    next y hy =>
      rw [Except.ok.injEq] at heq
      rw [← heq]
      exact ((Heap.allocNode_works hx).trans (updateOffset_works hy)).trans (Heap.free_works _ _)

theorem takePlace_works {node child : Addr} (heq : takePlace h c f fs node child = .ok r) :
    h.Works r.1 := by
  simp only [takePlace, bind, Except.bind] at heq
  split at heq
  next => cases heq
  next x hx =>
    have hfreed : h.Works ((x.1.free child).free f.node) :=
      ((updateOffset_works hx).trans (Heap.free_works _ _)).trans (Heap.free_works _ _)
    split at heq
    next =>
      rw [Except.ok.injEq] at heq
      rw [← heq]
      exact hfreed
    next =>
      rw [Except.ok.injEq] at heq
      rw [← heq]
      exact hfreed

theorem combine_works {t : TrieNode} {prefixLen : Nat}
    (heq : combine h c f fs t prefixLen = .ok r) : h.Works r.1 := by
  unfold combine at heq
  dsimp only at heq
  split at heq
  next =>
    split at heq
    next => exact reduceArray_works heq
    next =>
      simp only [bind, Except.bind] at heq
      split at heq
      next => cases heq
      next x hx => exact (Heap.allocNode_works hx).trans (takePlace_works heq)
  next =>
    split at heq
    next => exact reduceArray_works heq
    next =>
      simp only [bind, Except.bind] at heq
      split at heq
      next => cases heq
      next x hx => exact (Heap.allocNode_works hx).trans (takePlace_works heq)

/-- The node of a transition is freed at last. -/
theorem freeNode_works {x : Except Fault (Heap × Cursor)} (hx : ∀ y, x = .ok y → h.Works y.1)
    (heq : (do
      let (h, c) ← x
      .ok (h.free f.node, c)) = .ok r) : h.Works r.1 := by
  cases x with
  | error e => cases heq
  | ok y =>
    have hr : (y.1.free f.node, y.2) = r := Except.ok.inj heq
    rw [← hr]
    exact (hx y rfl).trans (Heap.free_works _ _)

theorem removeNode_works (heq : removeNode fs h c = .ok r) : h.Works r.1 := by
  induction fs generalizing h c r with
  | nil =>
    rw [removeNode, Except.ok.injEq] at heq
    rw [← heq]
    exact Works.refl h
  | cons f fs ih =>
    cases fs with
    | nil =>
      rw [removeNode, Except.ok.injEq] at heq
      rw [← heq]
      exact Heap.free_works _ _
    | cons g gs =>
      unfold removeNode at heq
      dsimp only at heq
      split at heq
      next =>
        rw [Except.ok.injEq] at heq
        rw [← heq]
        exact Works.refl h
      next =>
        split at heq
        . rw [← Except.ok.inj heq]
          exact Heap.free_works _ _
        . exact freeNode_works (fun y hy => ih hy) heq
        . exact freeNode_works (fun y hy => combine_works hy) heq
        . exact freeNode_works (fun y hy => reduceArray_works hy) heq

theorem remove_works (heq : remove h c = .ok r) : h.Works r.1 := by
  unfold remove at heq
  split at heq
  next => exact removeNode_works heq
  next => cases heq

end Cursor

/-- A change of the map is work of one transaction. -/
theorem Edit.exec_works {h : Heap} {root : Addr} {e : Edit} {r : Heap × Addr}
    (hedit : ∀ n, e ≠ .nextTransaction n) (heq : e.exec h root = .ok r) : h.Works r.1 := by
  cases e with
  | value key v =>
    simp only [exec] at heq
    split at heq
    next => cases heq
    next c hc =>
      cases hput : c.put h v with
      | error e =>
        rw [hput] at heq
        cases heq
      | ok x =>
        rw [hput, Except.map, Except.ok.injEq] at heq
        rw [← heq]
        exact Cursor.value_works hput
  | remove key =>
    simp only [exec] at heq
    split at heq
    next => cases heq
    next c hc =>
      cases hremove : c.remove h with
      | error e =>
        rw [hremove] at heq
        cases heq
      | ok x =>
        rw [hremove, Except.map, Except.ok.injEq] at heq
        rw [← heq]
        exact Cursor.remove_works hremove
  | nextTransaction n => exact absurd rfl (hedit n)

end Leaves
