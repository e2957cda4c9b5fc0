import Leaves.Replication.Transfer
import Mathlib.Data.List.Perm.Basic

/-!
What one message does on both sides: the sender writes nodes and keeps for later where it stopped,
the receiver acknowledges nodes of it, and what it counts as outstanding is what the sender keeps.
-/

namespace Leaves

namespace PendingTrieNode

/-- The offsets of a pending node that are not sent yet. -/
def unsent (p : PendingTrieNode) : List HashOffset := p.offset.children.drop p.nextChild

/-- All offsets that come with them. -/
def below (p : PendingTrieNode) : List HashOffset := p.unsent.flatMap HashOffset.offsets

/-- The number of offsets that are not sent yet. -/
def outstanding (ps : List PendingTrieNode) : Nat := (ps.map fun p => p.unsent.length).sum

/-- The pending nodes that do not lie below an acknowledged one. -/
def kept (acked : List HashOffset) (ps : List PendingTrieNode) : List PendingTrieNode :=
  ps.filter fun p => ∀ a ∈ acked, ¬ a.place <+: p.offset.place

@[simp]
theorem outstanding_nil : outstanding [] = 0 := rfl

@[simp]
theorem outstanding_append (ps qs : List PendingTrieNode) :
    outstanding (ps ++ qs) = outstanding ps + outstanding qs := by
  simp [outstanding]

@[simp]
theorem outstanding_singleton (p : PendingTrieNode) : outstanding [p] = p.unsent.length := by
  simp [outstanding]

@[simp]
theorem kept_nil (acked : List HashOffset) : kept acked [] = [] := rfl

/-- What lies below other places than the acknowledged nodes does not count. -/
theorem kept_append {acked acked' : List HashOffset} {ps qs : List PendingTrieNode}
    (hp : ∀ p ∈ ps, ∀ a ∈ acked', ¬ a.place <+: p.offset.place)
    (hq : ∀ p ∈ qs, ∀ a ∈ acked, ¬ a.place <+: p.offset.place) :
    kept (acked ++ acked') (ps ++ qs) = kept acked ps ++ kept acked' qs := by
  rw [kept, List.filter_append]
  congr 1
  . apply List.filter_congr
    intro p h
    simp only [List.mem_append, decide_eq_decide]
    constructor
    . intro hall a ha
      exact hall a (Or.inl ha)
    . intro hall a ha
      exact ha.elim (hall a) (hp p h a)
  . apply List.filter_congr
    intro p h
    simp only [List.mem_append, decide_eq_decide]
    constructor
    . intro hall a ha
      exact hall a (Or.inr ha)
    . intro hall a ha
      exact ha.elim (hq p h a) (hall a)

theorem mem_below {p : PendingTrieNode} {y : HashOffset} (h : y ∈ p.below) :
    y ∈ p.offset.children.flatMap HashOffset.offsets := by
  obtain ⟨c, hc, hy⟩ := List.mem_flatMap.mp h
  exact List.mem_flatMap.mpr ⟨c, List.mem_of_mem_drop hc, hy⟩

end PendingTrieNode

open PendingTrieNode

/-- The paths of the tries that are acknowledged. -/
def triePaths (acks : List (Key × Bool)) : List Key :=
  (acks.filter fun a => !a.2).map (·.1)

@[simp]
theorem triePaths_append (acks acks' : List (Key × Bool)) :
    triePaths (acks ++ acks') = triePaths acks ++ triePaths acks' := by
  simp [triePaths]

/-- The sender has gone from `s` to `s'` on the way through `xs` and left out `left`, `new` are the
nodes it has written, it keeps `later`, and `receive` is what the receiver does with the `n`
subtries that were written: `acked` are the tries it acknowledges. -/
structure Written (s s' : TransferTrieSender) (xs left new : List HashOffset)
    (later : List PendingTrieNode) (acked : List HashOffset)
    (receive : Nat → ReplicationReceiver → ReplicationReceiver) (n : Nat) : Prop where
  pending : s'.pending = s.pending
  capacity : s'.transfer.capacity = s.transfer.capacity
  size : s.transfer.size ≤ s'.transfer.size
  nodes : s'.transfer.nodes = s.transfer.nodes ++ new
  perm : (new ++ later.flatMap below ++ left).Perm xs
  lastBatch : s'.lastBatch = s.lastBatch ++ later
  later_mem : ∀ p ∈ later, p.offset ∈ xs ∧ p.path = p.offset.key ∧ p.unsent ≠ []
  acked_mem : ∀ a ∈ acked, a ∈ new ∧ a.tree.type = .trie
  count : ∀ bufferEnd, s'.transfer.size ≤ bufferEnd → ∀ r,
    (receive bufferEnd r).pendingChildren = r.pendingChildren - n + outstanding (kept acked later)
  paths : ∀ bufferEnd, s'.transfer.size ≤ bufferEnd → ∀ r,
    triePaths (receive bufferEnd r).prunePaths =
      triePaths r.prunePaths ++ acked.map HashOffset.key

namespace Written

variable {s s1 s2 : TransferTrieSender}

/-- What is acknowledged is below what was passed. -/
theorem mem_of_acked {xs left new acked : List HashOffset} {later : List PendingTrieNode}
    {receive : Nat → ReplicationReceiver → ReplicationReceiver} {n : Nat}
    (h : Written s s1 xs left new later acked receive n) {a : HashOffset} (ha : a ∈ acked) :
    a ∈ xs := by
  apply h.perm.subset
  apply List.mem_append_left
  exact List.mem_append_left _ (h.acked_mem a ha).1

/-- The sender goes no further. -/
theorem stop (xs : List HashOffset) (hpending : s1.pending = s.pending)
    (hcapacity : s1.transfer.capacity = s.transfer.capacity)
    (hsize : s1.transfer.size = s.transfer.size) (hnodes : s1.transfer.nodes = s.transfer.nodes)
    (hbatch : s1.lastBatch = s.lastBatch) : Written s s1 xs xs [] [] [] (fun _ r => r) 0 where
  pending := hpending
  capacity := hcapacity
  size := Nat.le_of_eq hsize.symm
  nodes := by simp [hnodes]
  perm := by simp
  lastBatch := by simp [hbatch]
  later_mem := by simp
  acked_mem := by simp
  count := by simp
  paths := by simp

/-- The sender goes on with offsets at other places. -/
theorem append {xs ys left new new' : List HashOffset} {later later' : List PendingTrieNode}
    {acked acked' : List HashOffset}
    {receive receive' : Nat → ReplicationReceiver → ReplicationReceiver} {n n' : Nat}
    (h : Written s s1 xs [] new later acked receive n)
    (h' : Written s1 s2 ys left new' later' acked' receive' n')
    (hxy : ∀ x ∈ xs, ∀ y ∈ ys, ¬ x.place <+: y.place ∧ ¬ y.place <+: x.place) :
    Written s s2 (xs ++ ys) left (new ++ new') (later ++ later') (acked ++ acked')
      (fun bufferEnd r => receive' bufferEnd (receive bufferEnd r)) (n' + n) where
  pending := h'.pending.trans h.pending
  capacity := h'.capacity.trans h.capacity
  size := Nat.le_trans h.size h'.size
  nodes := by rw [h'.nodes, h.nodes, List.append_assoc]
  perm := by
    classical
    rw [List.perm_iff_count]
    intro x
    have hx := List.perm_iff_count.mp h.perm x
    have hx' := List.perm_iff_count.mp h'.perm x
    simp only [List.count_append, List.flatMap_append, List.count_nil] at hx hx' ⊢
    omega
  lastBatch := by rw [h'.lastBatch, h.lastBatch, List.append_assoc]
  later_mem := by
    intro p hp
    rcases List.mem_append.mp hp with hp | hp
    . exact ⟨List.mem_append_left _ (h.later_mem p hp).1, (h.later_mem p hp).2⟩
    . exact ⟨List.mem_append_right _ (h'.later_mem p hp).1, (h'.later_mem p hp).2⟩
  acked_mem := by
    intro a ha
    rcases List.mem_append.mp ha with ha | ha
    . exact ⟨List.mem_append_left _ (h.acked_mem a ha).1, (h.acked_mem a ha).2⟩
    . exact ⟨List.mem_append_right _ (h'.acked_mem a ha).1, (h'.acked_mem a ha).2⟩
  count := by
    intro bufferEnd hend r
    have hkept : kept (acked ++ acked') (later ++ later') =
        kept acked later ++ kept acked' later' := by
      apply kept_append
      . intro p hp a ha
        exact (hxy _ (h.later_mem p hp).1 _ (h'.mem_of_acked ha)).2
      . intro p hp a ha
        exact (hxy _ (h.mem_of_acked ha) _ (h'.later_mem p hp).1).1
    rw [h'.count bufferEnd hend, h.count bufferEnd (Nat.le_trans h'.size hend), hkept,
      outstanding_append]
    push_cast
    omega
  paths := by
    intro bufferEnd hend r
    rw [h'.paths bufferEnd hend, h.paths bufferEnd (Nat.le_trans h'.size hend), List.map_append,
      List.append_assoc]

end Written

section Write

theorem le_align (n : Nat) : n ≤ align n := by
  rw [align]
  omega

theorem Wire.le_trieSize (c : Key) (branches : List Branch) :
    Wire.TRIE_NODE_SIZE ≤ Wire.trieSize c branches := by
  rw [Wire.trieSize]
  apply Nat.le_trans _ (le_align _)
  have : Wire.TRIE_NODE_SIZE + c.length ≤ padding (Wire.TRIE_NODE_SIZE + c.length) 4 := by
    rw [padding]
    omega
  omega

theorem Transfer.add_some {t t' : Transfer} {size dest : Nat} {x : HashOffset}
    (h : t.add size x = (some dest, t')) :
    t'.capacity = t.capacity ∧ t.size ≤ t'.size ∧ dest + size = t'.size ∧
      t'.nodes = t.nodes ++ [x] := by
  unfold add at h
  dsimp only at h
  split at h
  . obtain ⟨h1, rfl⟩ := Prod.mk.inj h
    obtain rfl := Option.some.inj h1
    have := le_align t.size
    exact ⟨rfl, by dsimp only; omega, rfl, rfl⟩
  . exact absurd (Prod.mk.inj h).1 (by simp)

theorem Transfer.add_none {t t' : Transfer} {size : Nat} {x : HashOffset}
    (h : t.add size x = (none, t')) : t' = { t with full := true } := by
  unfold add at h
  dsimp only at h
  split at h
  . exact absurd (Prod.mk.inj h).1 (by simp)
  . exact (Prod.mk.inj h).2.symm

variable (look : Key → NodeTypes → Option (List UInt8))

open ReplicationReceiver

variable {s s1 s2 : TransferTrieSender} {x : HashOffset} {t : Transfer} {dest : Nat}

theorem Written.leaf {page : HashPage} {b : Branch} (l : LeafNode) (hx : x.tree = .leaf page b)
    (hadd : s.transfer.add (Wire.leafSize l) x = (some dest, t)) :
    Written s { s with transfer := t } x.offsets [] [x] [] []
      (fun bufferEnd r => compareWireWithLocal look bufferEnd r x.path (.leaf dest page.hash l))
      1 := by
  obtain ⟨hcap, hsize, -, hnodes⟩ := Transfer.add_some hadd
  have hoffsets : x.offsets = [x] := by
    obtain ⟨place, path, t⟩ := x
    dsimp only at hx
    subst hx
    rfl
  refine ⟨rfl, hcap, hsize, hnodes, by simp [hoffsets], by simp, by simp, by simp, ?_, ?_⟩
  . intro bufferEnd hend r
    simp only [compareWireWithLocal, kept_nil, outstanding_nil]
    split
    . simp
    . split <;> simp
  . intro bufferEnd hend r
    simp only [compareWireWithLocal, List.map_nil, List.append_nil]
    split
    . rfl
    . split
      . simp [triePaths]
      . rfl

/-- What the sender keeps of a trie when it has written `n` of its children. -/
def own (x : HashOffset) (n : Nat) : List PendingTrieNode :=
  if n < x.children.length then [⟨x.key, x, n⟩] else []

theorem own_node (place : List Nat) (path : Key) (page : HashPage) (c : Key)
    (arr : List (Branch × HashTree)) (n : Nat) :
    own ⟨place, path, .node page c arr⟩ n =
      if n < arr.length then [⟨path ++ c, ⟨place, path, .node page c arr⟩, n⟩] else [] := by
  unfold own
  rw [HashOffset.length_children]
  rfl

theorem below_own (x : HashOffset) (n : Nat) :
    (own x n).flatMap below = (x.children.drop n).flatMap HashOffset.offsets := by
  unfold own
  split
  . simp [below, unsent]
  . have : x.children.drop n = [] := List.drop_eq_nil_of_le (by omega)
    rw [this]
    rfl

theorem outstanding_own (x : HashOffset) (n : Nat) :
    outstanding (own x n) = x.children.length - n := by
  unfold own
  split
  . rw [outstanding_singleton, unsent, List.length_drop]
  . rw [outstanding_nil]
    omega

theorem mem_own {x : HashOffset} {n : Nat} {p : PendingTrieNode} (h : p ∈ own x n) :
    p.offset = x ∧ p.path = x.key ∧ p.unsent ≠ [] := by
  unfold own at h
  split at h
  . obtain rfl := List.mem_singleton.mp h
    refine ⟨rfl, rfl, ?_⟩
    rw [unsent, ← List.length_pos_iff, List.length_drop]
    dsimp only
    omega
  . exact absurd h List.not_mem_nil

section Trie

variable {new : List HashOffset} {later : List PendingTrieNode} {acked : List HashOffset}
  {receive : Nat → ReplicationReceiver → ReplicationReceiver} {n size : Nat}
  (h : Written { s with transfer := t } s1 (x.children.flatMap HashOffset.offsets)
    ((x.children.drop n).flatMap HashOffset.offsets) new later acked receive n)

include h

/-- Nothing is kept of a trie that the receiver has. -/
theorem kept_self : kept [x] (later ++ own x n) = [] := by
  rw [kept, List.filter_eq_nil_iff]
  intro p hp
  rw [decide_eq_true_eq]
  intro hall
  apply hall x List.mem_cons_self
  rcases List.mem_append.mp hp with hp | hp
  . exact (HashOffset.place_below (h.later_mem p hp).1).1
  . obtain ⟨hx, -, -⟩ := mem_own hp
    exact hx ▸ List.prefix_refl x.place

/-- The trie itself is not below what is acknowledged of its children. -/
theorem kept_own : kept acked (later ++ own x n) = kept acked later ++ own x n := by
  have happend : kept (acked ++ []) (later ++ own x n) = kept acked later ++ kept [] (own x n) := by
    apply kept_append
    . simp
    . intro p hp a ha
      rw [(mem_own hp).1]
      exact (HashOffset.place_below (h.mem_of_acked ha)).2
  rw [List.append_nil] at happend
  rw [happend]
  congr 1
  simp [kept]

variable (hadd : s.transfer.add size x = (some dest, t))
  (hs2 : s2 = { s1 with lastBatch := s1.lastBatch ++ own x n })

include hadd hs2

/-- A trie on the side of the sender, after `n` of its children. -/
theorem Written.node {acked' : List HashOffset}
    {receive' : Nat → ReplicationReceiver → ReplicationReceiver}
    (hacked : ∀ a ∈ acked', a ∈ x :: new ∧ a.tree.type = .trie)
    (hcount : ∀ bufferEnd, s2.transfer.size ≤ bufferEnd → ∀ r,
      (receive' bufferEnd r).pendingChildren =
        r.pendingChildren - (1 : Nat) + outstanding (kept acked' (later ++ own x n)))
    (hpaths : ∀ bufferEnd, s2.transfer.size ≤ bufferEnd → ∀ r,
      triePaths (receive' bufferEnd r).prunePaths =
        triePaths r.prunePaths ++ acked'.map HashOffset.key) :
    Written s s2 x.offsets [] (x :: new) (later ++ own x n) acked' receive' 1 := by
  obtain ⟨hcap, hsize, hdest, hnodes⟩ := Transfer.add_some hadd
  subst hs2
  refine ⟨h.pending, h.capacity.trans hcap, Nat.le_trans hsize h.size, ?_, ?_, ?_, ?_, hacked,
    hcount, hpaths⟩
  . dsimp only
    rw [h.nodes, hnodes, List.append_assoc]
    rfl
  . rw [List.append_nil, HashOffset.offsets_eq, List.cons_append, List.perm_cons,
      List.flatMap_append, below_own, ← List.append_assoc]
    exact h.perm
  . dsimp only
    rw [h.lastBatch, List.append_assoc]
  . intro p hp
    rcases List.mem_append.mp hp with hp | hp
    . refine ⟨?_, (h.later_mem p hp).2⟩
      rw [HashOffset.offsets_eq]
      exact List.mem_cons_of_mem _ (h.later_mem p hp).1
    . obtain ⟨ho, hrest⟩ := mem_own hp
      rw [ho]
      exact ⟨HashOffset.self_mem_offsets x, hrest⟩

end Trie

/-- A trie, after as many of its children as were written. -/
theorem Written.trie {page : HashPage} {c : Key} {arr : List (Branch × HashTree)}
    {new acked : List HashOffset} {later : List PendingTrieNode} {array : List Wire}
    (hx : x.tree = .node page c arr)
    (hadd : s.transfer.add (Wire.trieSize c (arr.map (·.1))) x = (some dest, t))
    (h : Written { s with transfer := t } s1 (x.children.flatMap HashOffset.offsets)
      ((x.children.drop array.length).flatMap HashOffset.offsets) new later acked
      (fun bufferEnd r => compareWireWithLocal.go look bufferEnd r x.key array) array.length)
    (hs2 : s2 = { s1 with lastBatch := s1.lastBatch ++ own x array.length })
    (hle : array.length ≤ arr.length) :
    ∃ new later acked, Written s s2 x.offsets [] new later acked (fun bufferEnd r =>
      compareWireWithLocal look bufferEnd r x.path
        (.trie dest page.hash c (arr.map (·.1)) array)) 1 := by
  have hlen : x.children.length = arr.length := by
    rw [HashOffset.length_children, hx]
    rfl
  have hkey : x.path ++ c = x.key := by
    rw [HashOffset.key, hx]
    rfl
  have hsize : s2.transfer.size = s1.transfer.size := by
    rw [hs2]
  have hfit : ∀ bufferEnd, s2.transfer.size ≤ bufferEnd →
      ¬ (bufferEnd < dest + Wire.TRIE_NODE_SIZE ∨
        bufferEnd < dest + Wire.trieSize c (arr.map (·.1))) := by
    intro bufferEnd hend
    have h1 := Wire.le_trieSize c (arr.map (·.1))
    have h2 := h.size
    have h3 := (Transfer.add_some hadd).2.2.1
    dsimp only at h2
    omega
  by_cases hlook : look x.key .trie = some page.hash
  -- the receiver has the whole subtrie, nothing of it is kept
  . refine ⟨x :: new, later ++ own x array.length, [x], Written.node h hadd hs2 ?_ ?_ ?_⟩
    . intro a ha
      rw [List.mem_singleton.mp ha, hx]
      exact ⟨List.mem_cons_self, rfl⟩
    . intro bufferEnd hend r
      simp only [compareWireWithLocal]
      rw [hkey, if_neg (hfit bufferEnd hend), if_pos hlook, kept_self h, outstanding_nil]
      simp
    . intro bufferEnd hend r
      simp only [compareWireWithLocal]
      rw [hkey, if_neg (hfit bufferEnd hend), if_pos hlook]
      simp [triePaths]
  . refine ⟨x :: new, later ++ own x array.length, acked, Written.node h hadd hs2 ?_ ?_ ?_⟩
    . intro a ha
      exact ⟨List.mem_cons_of_mem _ (h.acked_mem a ha).1, (h.acked_mem a ha).2⟩
    . intro bufferEnd hend r
      rw [hsize] at hend
      simp only [compareWireWithLocal]
      rw [hkey, if_neg (hfit bufferEnd (hsize ▸ hend)), if_neg hlook, h.count bufferEnd hend,
        kept_own h, outstanding_append, outstanding_own, hlen]
      simp only [List.length_map]
      push_cast [hle]
      omega
    . intro bufferEnd hend r
      rw [hsize] at hend
      simp only [compareWireWithLocal]
      rw [hkey, if_neg (hfit bufferEnd (hsize ▸ hend)), if_neg hlook, h.paths bufferEnd hend]

end Write

namespace TransferTrieSender

variable (find : Key → LeafNode) (maxDepth : Nat)
variable (look : Key → NodeTypes → Option (List UInt8))

open ReplicationReceiver

theorem writeSubtree_none {s s' : TransferTrieSender} {depth : Nat} {place : List Nat} {path : Key}
    {t : HashTree} (h : writeSubtree find maxDepth s depth place path t = (none, s')) :
    s' = { s with transfer := { s.transfer with full := true } } := by
  cases t with
  | leaf page b =>
    rw [writeSubtree] at h
    split at h
    . next hadd =>
      rw [← Transfer.add_none hadd]
      exact (Prod.mk.inj h).2.symm
    . exact absurd (Prod.mk.inj h).1 (by simp)
  | node page c arr =>
    rw [writeSubtree] at h
    split at h
    . next hadd =>
      rw [← Transfer.add_none hadd]
      exact (Prod.mk.inj h).2.symm
    . split at h
      . exact absurd (Prod.mk.inj h).1 (by simp)
      . exact absurd (Prod.mk.inj h).1 (by simp)

/-- The loop over the children, up to the first that is not written. -/
theorem written_go {depth : Nat} {place : List Nat} {path : Key} {i : Nat}
    {arr : List (Branch × HashTree)} {s s' : TransferTrieSender} {array : List Wire}
    (ih : ∀ x ∈ arr, ∀ s depth place path w s',
      writeSubtree find maxDepth s depth place path x.2 = (some w, s') →
      ∃ new later acked, Written s s' (HashOffset.offsets ⟨place, path, x.2⟩) [] new later acked
        (fun bufferEnd r => compareWireWithLocal look bufferEnd r path w) 1)
    (h : writeSubtree.go find maxDepth s depth place path i arr = (array, s')) :
    array.length ≤ arr.length ∧ ∃ new later acked,
      Written s s' ((HashOffset.ofArray place path i arr).flatMap HashOffset.offsets)
        (((HashOffset.ofArray place path i arr).drop array.length).flatMap HashOffset.offsets)
        new later acked (fun bufferEnd r => compareWireWithLocal.go look bufferEnd r path array)
        array.length := by
  induction arr generalizing i s array with
  | nil =>
    rw [writeSubtree.go] at h
    obtain ⟨rfl, rfl⟩ := Prod.mk.inj h
    exact ⟨Nat.le_refl 0, [], [], [], Written.stop [] rfl rfl rfl rfl rfl⟩
  | cons x arr iharr =>
    rw [writeSubtree.go] at h
    split at h
    . obtain ⟨rfl, rfl⟩ := Prod.mk.inj h
      exact ⟨Nat.zero_le _, [], [], [], Written.stop _ rfl rfl rfl rfl rfl⟩
    . split at h
      . next s1 hw =>
        obtain ⟨rfl, rfl⟩ := Prod.mk.inj h
        rw [writeSubtree_none find maxDepth hw]
        exact ⟨Nat.zero_le _, [], [], [], Written.stop _ rfl rfl rfl rfl rfl⟩
      . next w s1 hw =>
        obtain ⟨rest, s2, hgo⟩ : ∃ rest s2, (rest, s2) =
            writeSubtree.go find maxDepth s1 depth place path (i + 1) arr := ⟨_, _, rfl⟩
        rw [← hgo] at h
        obtain ⟨rfl, rfl⟩ := Prod.mk.inj h
        obtain ⟨new, later, acked, hx⟩ := ih x List.mem_cons_self _ _ _ _ _ _ hw
        obtain ⟨hle, new', later', acked', harr⟩ :=
          iharr (fun y hy => ih y (List.mem_cons_of_mem _ hy)) hgo.symm
        refine ⟨Nat.succ_le_succ hle, new ++ new', later ++ later', acked ++ acked', ?_⟩
        have happend := hx.append harr (by
          intro y hy z hz
          obtain ⟨c, hc, hz⟩ := List.mem_flatMap.mp hz
          obtain ⟨j, hj, hplace, -⟩ := HashOffset.mem_ofArray hc
          have hy := HashOffset.place_of_mem_offsets hy
          have hz := HashOffset.place_of_mem_offsets hz
          rw [hplace] at hz
          constructor
          . intro hyz
            have := HashOffset.index_eq (hy.trans hyz) hz
            omega
          . intro hzy
            have := HashOffset.index_eq hy (hz.trans hzy)
            omega)
        exact happend

/-- What the sender writes and keeps, and what the receiver does with it. -/
theorem written_writeSubtree {t : HashTree} (hwf : t.WF) {s s' : TransferTrieSender} {depth : Nat}
    {place : List Nat} {path : Key} {w : Wire}
    (h : writeSubtree find maxDepth s depth place path t = (some w, s')) :
    ∃ new later acked, Written s s' (HashOffset.offsets ⟨place, path, t⟩) [] new later acked
      (fun bufferEnd r => compareWireWithLocal look bufferEnd r path w) 1 := by
  induction t using HashTree.induct generalizing s s' depth place path w with
  | leaf page b =>
    rw [writeSubtree] at h
    split at h
    . exact absurd (Prod.mk.inj h).1 (by simp)
    . next dest t hadd =>
      obtain ⟨h1, rfl⟩ := Prod.mk.inj h
      obtain rfl := Option.some.inj h1
      exact ⟨_, [], [], Written.leaf look _ rfl hadd⟩
  | node page c arr ih =>
    obtain ⟨hne, -, -, hsub⟩ := HashTree.wf_node.mp hwf
    rw [writeSubtree] at h
    split at h
    . exact absurd (Prod.mk.inj h).1 (by simp)
    . next dest t hadd =>
      split at h
      . obtain ⟨h1, rfl⟩ := Prod.mk.inj h
        obtain rfl := Option.some.inj h1
        apply Written.trie look rfl hadd (Written.stop _ rfl rfl rfl rfl rfl) _ (Nat.zero_le _)
        rw [own_node, List.length_nil, if_pos (List.length_pos_iff.mpr hne)]
      . obtain ⟨array, s1, hgo⟩ : ∃ array s1, (array, s1) = writeSubtree.go find maxDepth
            { s with transfer := t } (depth + 1) place (path ++ c) 0 arr := ⟨_, _, rfl⟩
        dsimp only at h
        rw [← hgo] at h
        obtain ⟨h1, rfl⟩ := Prod.mk.inj h
        obtain rfl := Option.some.inj h1
        obtain ⟨hle, new, later, acked, hw⟩ := written_go find maxDepth look
          (fun x hx s depth place path w s' h => ih x hx (hsub x hx) h) hgo.symm
        apply Written.trie look rfl hadd hw _ hle
        rw [own_node]
        split
        . rfl
        . simp

end TransferTrieSender
end Leaves
