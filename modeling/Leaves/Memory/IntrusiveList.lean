import Leaves.Lib.Linked
import Mathlib.Data.List.Nodup

/-!
The intrusive list and the object pool of `memory/_twoquecache.hpp`. An entry is the number of its
slot, 0 is `nullptr`.
-/

namespace Leaves

/-- What is in the slots. The value is the number of the area slice it points to, 0 for none. -/
structure Entries (Key : Type) where
  key : Nat → Key
  value : Nat → Nat
  prev : Nat → Nat
  next : Nat → Nat

structure IntrusiveList where
  head : Nat
  tail : Nat
  size : Nat
  deriving DecidableEq, Repr

variable {Key : Type}

namespace IntrusiveList

def empty : IntrusiveList := ⟨0, 0, 0⟩

def pushBack (l : IntrusiveList) (e : Entries Key) (node : Nat) : IntrusiveList × Entries Key :=
  let e := { e with
    prev := Function.update e.prev node l.tail, next := Function.update e.next node 0 }
  if l.tail = 0 then
    (⟨node, node, l.size + 1⟩, e)
  else
    (⟨l.head, node, l.size + 1⟩, { e with next := Function.update e.next l.tail node })

def unlink (l : IntrusiveList) (e : Entries Key) (node : Nat) : IntrusiveList × Entries Key :=
  let head := if e.prev node = 0 then e.next node else l.head
  let e :=
    if e.prev node = 0 then e
    else { e with next := Function.update e.next (e.prev node) (e.next node) }
  let tail := if e.next node = 0 then e.prev node else l.tail
  let e :=
    if e.next node = 0 then e
    else { e with prev := Function.update e.prev (e.next node) (e.prev node) }
  (⟨head, tail, l.size - 1⟩,
    { e with prev := Function.update e.prev node 0, next := Function.update e.next node 0 })

@[simp] theorem value_pushBack {l : IntrusiveList} {e : Entries Key} {node : Nat} :
    (l.pushBack e node).2.value = e.value := by
  unfold pushBack
  dsimp only
  split <;> rfl

@[simp] theorem value_unlink {l : IntrusiveList} {e : Entries Key} {node : Nat} :
    (l.unlink e node).2.value = e.value := by
  unfold unlink
  dsimp only
  split <;> split <;> rfl

def moveToBack (l : IntrusiveList) (e : Entries Key) (node : Nat) : IntrusiveList × Entries Key :=
  if node = l.tail then
    (l, e)
  else
    let r := l.unlink e node
    r.1.pushBack r.2 node

@[simp] theorem value_moveToBack {l : IntrusiveList} {e : Entries Key} {node : Nat} :
    (l.moveToBack e node).2.value = e.value := by
  unfold moveToBack
  split
  . rfl
  . simp

/-- The node leaves `src` for the end of this list. -/
def spliceBack (l src : IntrusiveList) (e : Entries Key) (node : Nat) :
    IntrusiveList × IntrusiveList × Entries Key :=
  let r := src.unlink e node
  let s := l.pushBack r.2 node
  (s.1, r.1, s.2)

end IntrusiveList

/-- The slots that are free, and the number of chunks of 64 slots that have been allocated. -/
structure ObjectPool where
  freeList : List Nat
  chunks : Nat

namespace ObjectPool

def CHUNK_SIZE : Nat := 64

def empty : ObjectPool := ⟨[], 0⟩

/-- The slots of the new chunk go to the free list one after the other, the last one first. -/
def addChunk (p : ObjectPool) : ObjectPool :=
  ⟨(List.range' (CHUNK_SIZE * p.chunks + 1) CHUNK_SIZE).reverse ++ p.freeList, p.chunks + 1⟩

def refill (p : ObjectPool) : ObjectPool :=
  if p.freeList = [] then p.addChunk else p

/-- The slot is taken and an entry is constructed in it. -/
def alloc (p : ObjectPool) (e : Entries Key) (key : Key) (value : Nat) :
    ObjectPool × Entries Key × Nat :=
  let slot := p.refill.freeList.headD 0
  (⟨p.refill.freeList.tail, p.refill.chunks⟩,
    { key := Function.update e.key slot key, value := Function.update e.value slot value,
      prev := Function.update e.prev slot 0, next := Function.update e.next slot 0 },
    slot)

def free (p : ObjectPool) (slot : Nat) : ObjectPool := ⟨slot :: p.freeList, p.chunks⟩

/-- The free slots and those in use are different slots of the chunks. -/
structure Holds (p : ObjectPool) (live : List Nat) : Prop where
  nodup : (p.freeList ++ live).Nodup
  bound : ∀ a ∈ p.freeList ++ live, 0 < a ∧ a ≤ CHUNK_SIZE * p.chunks

namespace Holds

variable {p : ObjectPool} {live live' : List Nat} {a : Nat}

theorem empty : ObjectPool.empty.Holds [] := ⟨List.nodup_nil, fun _ ha => by cases ha⟩

theorem perm (h : p.Holds live) (hperm : live.Perm live') : p.Holds live' := by
  have happend := hperm.append_left p.freeList
  constructor
  . exact happend.nodup_iff.mp h.nodup
  . intro a ha
    exact h.bound a (happend.mem_iff.mpr ha)

theorem ne_zero (h : p.Holds live) (hmem : a ∈ live) : a ≠ 0 := by
  have hpos := (h.bound a (List.mem_append_right _ hmem)).1
  omega

theorem addChunk (h : p.Holds live) : p.addChunk.Holds live := by
  unfold ObjectPool.addChunk
  constructor
  . rw [List.append_assoc, List.nodup_append]
    refine ⟨List.nodup_reverse.mpr (List.nodup_range' 1), h.nodup, ?_⟩
    intro a ha b hb
    have hbound := (h.bound b hb).2
    rw [List.mem_reverse, List.mem_range'_1] at ha
    omega
  . intro a ha
    rw [List.append_assoc, List.mem_append, List.mem_reverse, List.mem_range'_1] at ha
    dsimp only
    rw [Nat.mul_add]
    rcases ha with ha | ha
    . omega
    . have hbound := h.bound a ha
      omega

theorem refill (h : p.Holds live) : p.refill.Holds live ∧ p.refill.freeList ≠ [] := by
  unfold ObjectPool.refill
  split
  next =>
    refine ⟨h.addChunk, ?_⟩
    simp [ObjectPool.addChunk, CHUNK_SIZE]
  next hne => exact ⟨h, hne⟩

theorem alloc (h : p.Holds live) (e : Entries Key) (key : Key) (value : Nat) :
    (p.alloc e key value).1.Holds ((p.alloc e key value).2.2 :: live) := by
  obtain ⟨hrefill, hne⟩ := h.refill
  unfold ObjectPool.alloc
  dsimp only
  cases hfree : p.refill.freeList with
  | nil => exact absurd hfree hne
  | cons slot rest =>
    have hperm : (slot :: (rest ++ live)).Perm (rest ++ slot :: live) := List.perm_middle.symm
    have hnodup := hrefill.nodup
    have hbound := hrefill.bound
    rw [hfree, List.cons_append] at hnodup hbound
    constructor
    . exact hperm.nodup_iff.mp hnodup
    . intro a ha
      exact hbound a (hperm.mem_iff.mpr ha)

theorem alloc_notMem (h : p.Holds live) (e : Entries Key) (key : Key) (value : Nat) :
    (p.alloc e key value).2.2 ∉ live := by
  have hnodup := (h.alloc e key value).nodup
  rw [List.nodup_append, List.nodup_cons] at hnodup
  exact hnodup.2.1.1

theorem alloc_ne_zero (h : p.Holds live) (e : Entries Key) (key : Key) (value : Nat) :
    (p.alloc e key value).2.2 ≠ 0 :=
  (h.alloc e key value).ne_zero List.mem_cons_self

theorem free (h : p.Holds (a :: live)) : (p.free a).Holds live := by
  have hperm : (p.freeList ++ a :: live).Perm (a :: (p.freeList ++ live)) := List.perm_middle
  constructor
  . exact hperm.nodup_iff.mp h.nodup
  . intro b hb
    exact h.bound b (hperm.mem_iff.mpr hb)

end Holds
end ObjectPool

/-- The keys and the values are the same, and so are the links of all cells but some. -/
structure Entries.Frame (e e' : Entries Key) (cells : List Nat) : Prop where
  key_eq : e'.key = e.key
  value_eq : e'.value = e.value
  prev_eq : ∀ a ∉ cells, e'.prev a = e.prev a
  next_eq : ∀ a ∉ cells, e'.next a = e.next a

theorem Entries.Frame.trans {e e' e'' : Entries Key} {cells : List Nat} (h : e.Frame e' cells)
    (h' : e'.Frame e'' cells) : e.Frame e'' cells where
  key_eq := h'.key_eq.trans h.key_eq
  value_eq := h'.value_eq.trans h.value_eq
  prev_eq := fun a ha => (h'.prev_eq a ha).trans (h.prev_eq a ha)
  next_eq := fun a ha => (h'.next_eq a ha).trans (h.next_eq a ha)

theorem Entries.Frame.mono {e e' : Entries Key} {cells cells' : List Nat} (h : e.Frame e' cells)
    (hsub : cells ⊆ cells') : e.Frame e' cells' where
  key_eq := h.key_eq
  value_eq := h.value_eq
  prev_eq := fun a ha => h.prev_eq a fun hmem => ha (hsub hmem)
  next_eq := fun a ha => h.next_eq a fun hmem => ha (hsub hmem)

namespace IntrusiveList

/-- The cells of the list, linked forwards and backwards. -/
structure Holds (l : IntrusiveList) (e : Entries Key) (cells : List Nat) : Prop where
  forward : Chain e.next 0 l.head l.tail cells
  backward : Chain e.prev 0 l.tail l.head cells.reverse
  size_eq : l.size = cells.length
  nodup : cells.Nodup
  nonnull : 0 ∉ cells

namespace Holds

variable {l : IntrusiveList} {e e' : Entries Key} {cells cells' pre post : List Nat} {node : Nat}

theorem empty (e : Entries Key) : IntrusiveList.empty.Holds e [] :=
  ⟨Chain.nil, Chain.nil, rfl, List.nodup_nil, List.not_mem_nil⟩

theorem congr (h : l.Holds e cells) (hnext : ∀ a ∈ cells, e'.next a = e.next a)
    (hprev : ∀ a ∈ cells, e'.prev a = e.prev a) : l.Holds e' cells where
  forward := h.forward.congr hnext
  backward := h.backward.congr fun a ha => hprev a (List.mem_reverse.mp ha)
  size_eq := h.size_eq
  nodup := h.nodup
  nonnull := h.nonnull

theorem frame (h : l.Holds e cells) (hframe : e.Frame e' cells') (happart : cells.Disjoint cells') :
    l.Holds e' cells :=
  h.congr (fun a ha => hframe.next_eq a (happart ha)) fun a ha => hframe.prev_eq a (happart ha)

theorem tail_null (h : l.Holds e cells) : l.tail = 0 ↔ cells = [] := h.forward.last_null h.nonnull

theorem head_null (h : l.Holds e cells) : l.head = 0 ↔ cells = [] := h.forward.first_null h.nonnull

theorem pushBack (h : l.Holds e cells) (hmem : node ∉ cells) (hnode : node ≠ 0) :
    (l.pushBack e node).1.Holds (l.pushBack e node).2 (cells ++ [node]) := by
  have hnodup : (cells ++ [node]).Nodup := by
    rw [List.nodup_append]
    simp only [List.mem_singleton]
    refine ⟨h.nodup, List.nodup_singleton node, ?_⟩
    rintro a ha b rfl rfl
    exact hmem ha
  have hnonnull : 0 ∉ cells ++ [node] := by
    rw [List.mem_append, List.mem_singleton]
    rintro (h0 | h0)
    . exact h.nonnull h0
    . exact hnode h0.symm
  have hback := h.backward.push (a := node) (by simpa using hmem) (by simpa using h.nonnull)
  unfold IntrusiveList.pushBack
  dsimp only
  split
  next htail =>
    obtain rfl := h.tail_null.mp htail
    have hhead : l.head = 0 := h.head_null.mpr rfl
    rw [if_pos hhead] at hback
    refine ⟨?_, hback, ?_, hnodup, hnonnull⟩
    . exact Chain.single (Function.update_self ..)
    . simp [h.size_eq]
  next htail =>
    have hne : cells ≠ [] := fun hnil => htail (h.tail_null.mpr hnil)
    have hhead : l.head ≠ 0 := fun hnull => hne (h.head_null.mp hnull)
    have hfore := (h.forward.update hmem 0).snoc hne h.nodup hmem (Function.update_self ..)
    rw [if_neg hhead] at hback
    refine ⟨hfore, ?_, ?_, hnodup, hnonnull⟩
    . rw [List.reverse_append, List.reverse_singleton]
      exact hback
    . simp [h.size_eq]

theorem frame_pushBack (h : l.Holds e cells) : e.Frame (l.pushBack e node).2 (node :: cells) := by
  have hprev : ∀ a ∉ node :: cells, Function.update e.prev node l.tail a = e.prev a := by
    intro a ha
    apply Function.update_of_ne
    rintro rfl
    exact ha List.mem_cons_self
  have hnext : ∀ a ∉ node :: cells, Function.update e.next node 0 a = e.next a := by
    intro a ha
    apply Function.update_of_ne
    rintro rfl
    exact ha List.mem_cons_self
  unfold IntrusiveList.pushBack
  dsimp only
  split
  next => exact ⟨rfl, rfl, hprev, hnext⟩
  next htail =>
    refine ⟨rfl, rfl, hprev, ?_⟩
    intro a ha
    dsimp only
    rw [Function.update_of_ne, hnext a ha]
    rintro rfl
    apply ha
    apply List.mem_cons_of_mem
    apply h.forward.last_mem
    rintro rfl
    exact htail (h.tail_null.mpr rfl)

/-- The cell before a cell of the list. -/
theorem prev_eq (h : l.Holds e (pre ++ node :: post)) : e.prev node = pre.getLastD 0 := by
  have hback := h.backward.linked
  rw [List.reverse_append, List.reverse_cons, List.append_assoc, Linked.append] at hback
  rw [hback.2.1]
  rcases List.eq_nil_or_concat' pre with rfl | ⟨pre, a, rfl⟩ <;> simp

/-- The cell after a cell of the list. -/
theorem next_eq (h : l.Holds e (pre ++ node :: post)) : e.next node = post.headD 0 := by
  have hfore := h.forward.linked
  rw [Linked.append] at hfore
  exact hfore.2.1

theorem prev_ne (h : l.Holds e (pre ++ node :: post)) : e.prev node ≠ node := by
  have hnodup := h.nodup
  have hnonnull := h.nonnull
  rw [h.prev_eq]
  rcases List.eq_nil_or_concat' pre with rfl | ⟨pre, a, rfl⟩
  . rintro rfl
    simp at hnonnull
  . rw [List.getLastD_concat]
    rintro rfl
    simp [List.nodup_append] at hnodup

/-- Both neighbours are read before they are written. -/
theorem unlink_eq (hne : e.prev node ≠ node) : l.unlink e node =
    (⟨if e.prev node = 0 then e.next node else l.head,
      if e.next node = 0 then e.prev node else l.tail, l.size - 1⟩,
      { e with
        prev := Function.update (if e.next node = 0 then e.prev
          else Function.update e.prev (e.next node) (e.prev node)) node 0,
        next := Function.update (if e.prev node = 0 then e.next
          else Function.update e.next (e.prev node) (e.next node)) node 0 }) := by
  unfold IntrusiveList.unlink
  by_cases hprev : e.prev node = 0
  . by_cases hnext : e.next node = 0 <;> simp [hprev, hnext]
  . by_cases hnext : e.next node = 0 <;>
      simp [hprev, hnext, Function.update_of_ne hne.symm]

theorem unlink (h : l.Holds e (pre ++ node :: post)) :
    (l.unlink e node).1.Holds (l.unlink e node).2 (pre ++ post) := by
  have hnodup := h.nodup
  have hnonnull := h.nonnull
  have hnode : node ∉ pre ++ post := (List.nodup_middle.mp hnodup).notMem
  have hrest : 0 ∉ pre ++ post := by
    intro h0
    apply hnonnull
    rw [List.mem_append] at h0 ⊢
    exact h0.imp_right (List.mem_cons_of_mem node)
  have hback := h.backward
  have hnodup' : (post.reverse ++ node :: pre.reverse).Nodup := by
    have hreverse := List.nodup_reverse.mpr hnodup
    simpa using hreverse
  rw [List.reverse_append, List.reverse_cons, List.append_assoc, List.singleton_append] at hback
  have hfore := h.forward.unlink hnodup fun h0 => hrest (List.mem_append_left _ h0)
  have hback := hback.unlink hnodup' fun h0 =>
    hrest (List.mem_append_right _ (List.mem_reverse.mp h0))
  have hlast : post.reverse.getLastD 0 = post.headD 0 := by cases post <;> simp
  rw [← h.prev_eq] at hfore
  rw [hlast, ← h.next_eq] at hback
  have hreverse : post.reverse ++ pre.reverse = (pre ++ post).reverse := by simp
  have hhead : (pre ++ post).headD 0 = (pre ++ post).reverse.getLastD 0 := by
    cases pre ++ post <;> simp
  have htail : (pre ++ post).getLastD 0 = (pre ++ post).reverse.headD 0 := by
    rcases List.eq_nil_or_concat' (pre ++ post) with hnil | ⟨init, a, hcells⟩
    . simp [hnil]
    . simp [hcells]
  rw [hreverse] at hback
  rw [unlink_eq h.prev_ne]
  refine ⟨⟨hfore.first_eq, ?_, ?_⟩, ⟨hback.first_eq, ?_, ?_⟩, ?_, ?_, hrest⟩
  . rw [htail]
    exact hback.first_eq
  . exact hfore.linked.update hnode 0
  . rw [← hhead]
    exact hfore.first_eq
  . exact hback.linked.update (fun hmem => hnode (List.mem_reverse.mp hmem)) 0
  . simp [h.size_eq]
  . exact (List.nodup_middle.mp hnodup).of_cons

theorem frame_unlink (h : l.Holds e (pre ++ node :: post)) :
    e.Frame (l.unlink e node).2 (pre ++ node :: post) := by
  have hmem : node ∈ pre ++ node :: post := by simp
  rw [unlink_eq h.prev_ne]
  refine ⟨rfl, rfl, ?_, ?_⟩
  . intro a ha
    have hne : a ≠ node := by
      rintro rfl
      exact ha hmem
    dsimp only
    rw [Function.update_of_ne hne]
    split
    next => rfl
    next hnext =>
      rw [Function.update_of_ne]
      rintro rfl
      rw [h.next_eq] at ha hnext
      cases post with
      | nil => exact hnext rfl
      | cons b post => simp at ha
  . intro a ha
    have hne : a ≠ node := by
      rintro rfl
      exact ha hmem
    dsimp only
    rw [Function.update_of_ne hne]
    split
    next => rfl
    next hprev =>
      rw [Function.update_of_ne]
      rintro rfl
      rw [h.prev_eq] at ha hprev
      rcases List.eq_nil_or_concat' pre with rfl | ⟨pre, b, rfl⟩
      . exact hprev rfl
      . simp at ha

theorem moveToBack (h : l.Holds e (pre ++ node :: post)) :
    (l.moveToBack e node).1.Holds (l.moveToBack e node).2 (pre ++ post ++ [node]) := by
  unfold IntrusiveList.moveToBack
  split
  next htail =>
    have hlast := h.forward.last_eq
    have hnodup := h.nodup
    rcases List.eq_nil_or_concat' post with rfl | ⟨post, a, rfl⟩
    . rw [List.append_nil]
      exact h
    . rw [← List.cons_append, ← List.append_assoc, List.getLastD_concat, ← htail] at hlast
      subst hlast
      simp [List.nodup_append] at hnodup
  next =>
    apply h.unlink.pushBack
    . exact (List.nodup_middle.mp h.nodup).notMem
    . rintro rfl
      exact h.nonnull (by simp)

theorem frame_moveToBack (h : l.Holds e (pre ++ node :: post)) :
    e.Frame (l.moveToBack e node).2 (pre ++ node :: post) := by
  unfold IntrusiveList.moveToBack
  split
  next => exact ⟨rfl, rfl, fun _ _ => rfl, fun _ _ => rfl⟩
  next =>
    apply h.frame_unlink.trans
    apply h.unlink.frame_pushBack.mono
    intro a ha
    simp only [List.mem_cons, List.mem_append] at ha ⊢
    tauto

end Holds
end IntrusiveList
end Leaves
