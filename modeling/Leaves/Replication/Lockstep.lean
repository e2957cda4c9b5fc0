import Leaves.Replication.Batch

/-!
A phase of a transfer: message and acknowledgement take turns until nothing is pending. A node that
does not fit into an empty message is left out for good, and a message whose path is empty counts
its root once more, also if it goes on with the root of the trie.
-/

namespace Leaves

open PendingTrieNode

/-- Both sides, with the nodes that were sent and the paths of the tries that were acknowledged. -/
structure TransferPhase where
  sender : TransferTrieSender
  receiver : ReplicationReceiver
  sent : List HashOffset
  acked : List Key
  deriving Inhabited

namespace TransferPhase

variable (find : Key → LeafNode) (maxDepth : Nat) (root : Option HashTree)

def begin (capacity : Nat) : TransferPhase where
  sender := { transfer := ⟨capacity, 0, false, []⟩, pending := [], lastBatch := [] }
  receiver := { pendingChildren := 0, prunePaths := [] }
  sent := []
  acked := []

/-- The message that is sent next, and the sender after it. -/
def message (s : TransferPhase) : TransferMessage × TransferTrieSender :=
  s.sender.fillBuffer find maxDepth root

/-- The nodes in the message that is sent next. -/
def batch (s : TransferPhase) : List HashOffset :=
  (s.message find maxDepth root).2.transfer.nodes

/-- One message and its acknowledgement, `look` finds the hashes of the receiver. -/
def round (look : Key → NodeTypes → Option (List UInt8)) (s : TransferPhase) : TransferPhase :=
  let (msg, sender) := s.message find maxDepth root
  let (acks, receiver) := (s.receiver.processReceivedNodes look msg).sendPruneAck
  { sender := sender.processAck acks
    receiver := receiver
    sent := s.sent ++ sender.transfer.nodes
    acked := s.acked ++ triePaths acks }

/-- The sender goes on after the first message only if something is pending. -/
def Sends (n : Nat) (s : TransferPhase) : Prop := n = 0 ∨ s.sender.hasPending = true

instance (n : Nat) (s : TransferPhase) : Decidable (s.Sends n) :=
  inferInstanceAs (Decidable (_ ∨ _))

/-- The phase after `n` messages, for each of which the receiver may have another hash trie. -/
def run (capacity : Nat) (hashRoots : Nat → Option HashTree) : Nat → TransferPhase
  | 0 => begin capacity
  | n + 1 =>
    let s := run capacity hashRoots n
    if s.Sends n then s.round find maxDepth root (HashTree.lookup (hashRoots n)) else s

/-- All nodes of the hash trie of the sender. -/
def nodes : List HashOffset :=
  match root with
  | none => []
  | some t => HashOffset.offsets ⟨[], [], t⟩

/-- A node lies below a path that was acknowledged. -/
def Pruned (s : TransferPhase) (x : HashOffset) : Prop := ∃ q ∈ s.acked, q <+: x.path

/-- The state between two messages, after the first: what the two sides know fits together. -/
structure Lockstep (s : TransferPhase) : Prop where
  once : s.sent.Nodup
  nodes : s.sent ⊆ nodes root
  complete : s.sender.hasPending = false → ∀ x ∈ TransferPhase.nodes root, s.Pruned x ∨ x ∈ s.sent
  arrived : s.receiver.pendingChildren = 0 ↔
    ∀ x ∈ TransferPhase.nodes root, ¬ s.Pruned x → x ∈ s.sent
  leave : s.receiver.pendingChildren = 0 ↔ s.sender.hasPending = false

/-- What a node needs in a message. -/
def wireSize (x : HashOffset) : Nat :=
  match x.tree with
  | .leaf _ _ => Wire.leafSize (find x.key)
  | .node _ c arr => Wire.trieSize c (arr.map (·.1))

/-- The offset the next message starts with. -/
def next (s : TransferPhase) : Option HashOffset :=
  match s.sender.pending.getLast? with
  | none => root.map fun t => ⟨[], [], t⟩
  | some p => p.offset.children[p.nextChild]?

/-- The node fits into an empty message, behind the path it is sent with. -/
def Fits (s : TransferPhase) (x : HashOffset) : Prop :=
  let t := s.sender.transfer.begin x.path
  align t.size + wireSize find x ≤ t.capacity

instance (s : TransferPhase) (x : HashOffset) : Decidable (s.Fits find x) :=
  inferInstanceAs (Decidable (_ ≤ _))

/-- The condition for the next message: its root fits, and only the first one has no path. -/
structure Meets (s : TransferPhase) : Prop where
  fits : ∀ x, s.next root = some x → s.Fits find x
  named : ∀ p, s.sender.pending.getLast? = some p → p.path ≠ []

theorem meets_iff (s : TransferPhase) : s.Meets find root ↔
    (s.next root).all (fun x => s.Fits find x) = true ∧
      s.sender.pending.getLast?.all (fun p => p.path ≠ []) = true := by
  simp only [Option.all_eq_true, decide_eq_true_eq]
  constructor
  . intro h
    exact ⟨h.fits, h.named⟩
  . intro h
    exact ⟨h.1, h.2⟩

instance (s : TransferPhase) : Decidable (s.Meets find root) :=
  decidable_of_iff _ (meets_iff find root s).symm

/-- What the sender still has to send of the nodes that were pending before a message. -/
def remaining (s : TransferPhase) : List PendingTrieNode :=
  match s.sender.pending.getLast? with
  | none => []
  | some p =>
    s.sender.pending.dropLast ++
      if p.offset.children.length ≤ p.nextChild + 1 then []
      else [{ p with nextChild := p.nextChild + 1 }]

section Round

variable {find maxDepth root}

theorem isPrunedByAck_iff {acks : List (Key × Bool)} {path : Key} :
    TransferTrieSender.isPrunedByAck acks path false = true ↔
      ∃ q ∈ triePaths acks, q <+: path := by
  unfold TransferTrieSender.isPrunedByAck triePaths
  simp only [List.any_eq_true, Bool.false_and, Bool.or_false, Bool.and_eq_true,
    List.isPrefixOf_iff_prefix, List.mem_map, List.mem_filter]
  constructor
  . intro ⟨a, ha, hb, hpre⟩
    exact ⟨a.1, ⟨a, ⟨ha, hb⟩, rfl⟩, hpre⟩
  . intro ⟨q, ⟨a, ⟨ha, hb⟩, hq⟩, hpre⟩
    subst hq
    exact ⟨a, ha, hb, hpre⟩

theorem writeSubtree_some {s : TransferTrieSender} {x : HashOffset} (depth : Nat)
    (h : align s.transfer.size + wireSize find x ≤ s.transfer.capacity) :
    ∃ w s', TransferTrieSender.writeSubtree find maxDepth s depth x.place x.path x.tree =
      (some w, s') := by
  obtain ⟨place, path, t⟩ := x
  cases t with
  | leaf page b =>
    simp only [wireSize, HashOffset.key, HashTree.label] at h
    simp only [TransferTrieSender.writeSubtree, Transfer.add]
    rw [if_pos h]
    exact ⟨_, _, rfl⟩
  | node page c arr =>
    simp only [wireSize] at h
    simp only [TransferTrieSender.writeSubtree, Transfer.add]
    rw [if_pos h]
    dsimp only
    split
    . exact ⟨_, _, rfl⟩
    . exact ⟨_, _, rfl⟩

/-- What one message and its acknowledgement change, the message starts with `x`. -/
structure Round (s s' : TransferPhase) (x : HashOffset) (new : List HashOffset)
    (later : List PendingTrieNode) (acked : List HashOffset) : Prop where
  perm : (new ++ later.flatMap below).Perm x.offsets
  later_mem : ∀ p ∈ later, p.offset ∈ x.offsets ∧ p.path = p.offset.key ∧ p.unsent ≠ []
  acked_mem : ∀ a ∈ acked, a ∈ new ∧ a.tree.type = .trie
  sent : s'.sent = s.sent ++ new
  acks : s'.acked = s.acked ++ acked.map HashOffset.key
  lastBatch : s'.sender.lastBatch = []
  prunePaths : s'.receiver.prunePaths = []
  pending : s'.sender.pending = s.remaining ++
    later.filter fun p => ∀ a ∈ acked, ¬ a.key <+: p.path
  count : s'.receiver.pendingChildren = s.receiver.pendingChildren +
    (if x.path = [] then 1 else 0) - 1 + outstanding (kept acked later)

/-- The sender fills the buffer, starting with `x`. -/
theorem message_eq {s : TransferPhase} {x : HashOffset} (hx : s.next root = some x)
    (hpath : ∀ p, s.sender.pending.getLast? = some p → p.path = x.path) :
    s.message find maxDepth root =
      let r := TransferTrieSender.writeSubtree find maxDepth
        { s.sender with transfer := s.sender.transfer.begin x.path } 0 x.place x.path x.tree
      (⟨x.path, r.2.transfer.nodes.length, r.1, r.2.transfer.size⟩,
        { r.2 with pending := match s.sender.pending.getLast? with
          | none => r.2.pending
          | some p => r.2.pending.dropLast ++
            if p.offset.children.length ≤ p.nextChild + 1 then []
            else [{ p with nextChild := p.nextChild + 1 }] }) := by
  unfold message TransferTrieSender.fillBuffer
  unfold next at hx
  cases hlast : s.sender.pending.getLast? with
  | none =>
    rw [hlast] at hx
    dsimp only at hx
    cases root with
    | none => exact absurd hx (by simp)
    | some t =>
      obtain rfl := Option.some.inj hx
      rfl
  | some p =>
    rw [hlast] at hx
    dsimp only at hx ⊢
    rw [hx, hpath p hlast]

theorem round_spec {look : Key → NodeTypes → Option (List UInt8)} {s : TransferPhase}
    {x : HashOffset} (hx : s.next root = some x) (hwf : x.tree.WF) (hfits : s.Fits find x)
    (hpath : ∀ p, s.sender.pending.getLast? = some p → p.path = x.path)
    (hbatch : s.sender.lastBatch = []) (hpaths : s.receiver.prunePaths = []) :
    ∃ new later acked, Round s (s.round find maxDepth root look) x new later acked ∧
      s.batch find maxDepth root = new := by
  obtain ⟨w, s', hw⟩ : ∃ w s', TransferTrieSender.writeSubtree find maxDepth
      { s.sender with transfer := s.sender.transfer.begin x.path } 0 x.place x.path x.tree =
        (some w, s') := writeSubtree_some 0 hfits
  obtain ⟨new, later, acked, h⟩ :=
    TransferTrieSender.written_writeSubtree find maxDepth look hwf hw
  have hmsg := @message_eq find maxDepth root s x hx hpath
  rw [hw] at hmsg
  dsimp only at hmsg
  have hnodes : s'.transfer.nodes = new := by
    rw [h.nodes]
    rfl
  have hlater : s'.lastBatch = later := by
    rw [h.lastBatch]
    dsimp only
    rw [hbatch]
    rfl
  have hne : s'.transfer.nodes.length ≠ 0 := by
    rw [hnodes]
    intro hnil
    have hself : x ∈ later.flatMap below := by
      have := h.perm.symm.subset (HashOffset.self_mem_offsets x)
      rw [List.eq_nil_of_length_eq_zero hnil] at this
      simpa using this
    obtain ⟨p, hp, hself⟩ := List.mem_flatMap.mp hself
    exact (HashOffset.place_below (mem_below hself)).2
      (HashOffset.place_of_mem_offsets (h.later_mem p hp).1)
  obtain ⟨r, hr⟩ : ∃ r, r = s.receiver.processReceivedNodes look
      ⟨x.path, s'.transfer.nodes.length, some w, s'.transfer.size⟩ := ⟨_, rfl⟩
  have hround : s.round find maxDepth root look =
      { sender := TransferTrieSender.processAck
          (s.message find maxDepth root).2 r.prunePaths
        receiver := { r with prunePaths := [] }
        sent := s.sent ++ new
        acked := s.acked ++ triePaths r.prunePaths } := by
    unfold round
    rw [hr, ← hnodes, hmsg]
    rfl
  have hacks : triePaths r.prunePaths = acked.map HashOffset.key := by
    rw [hr]
    unfold ReplicationReceiver.processReceivedNodes
    rw [if_neg hne]
    dsimp only
    rw [h.paths _ (Nat.le_refl _)]
    split
    . rw [hpaths]
      rfl
    . rw [hpaths]
      rfl
  have hcount : r.pendingChildren = s.receiver.pendingChildren +
      (if x.path = [] then 1 else 0) - 1 + outstanding (kept acked later) := by
    rw [hr]
    unfold ReplicationReceiver.processReceivedNodes
    rw [if_neg hne]
    dsimp only
    rw [h.count _ (Nat.le_refl _)]
    split
    . rfl
    . simp
  have hperm : (new ++ later.flatMap below).Perm x.offsets := by
    simpa using h.perm
  refine ⟨new, later, acked, ⟨hperm, h.later_mem, h.acked_mem, ?_, ?_, ?_, ?_, ?_, ?_⟩, ?_⟩
  . rw [hround]
  . rw [hround, hacks]
  . rw [hround]
    rfl
  . rw [hround]
  . rw [hround, hmsg]
    unfold TransferTrieSender.processAck remaining
    dsimp only
    rw [hlater]
    congr 1
    . cases hlast : s.sender.pending.getLast? with
      | none =>
        rw [h.pending]
        exact List.getLast?_eq_none_iff.mp hlast
      | some p => rw [h.pending]
    . apply List.filter_congr
      intro p hp
      rw [Bool.eq_iff_iff, Bool.not_eq_true', ← Bool.not_eq_true, isPrunedByAck_iff, hacks]
      simp
  . rw [hround]
    exact hcount
  . unfold batch
    rw [hmsg]
    exact hnodes

end Round

/--
The nodes of the trie below `top` are sent, or still to do, or dropped: below one of the `tries`
that the receiver has acknowledged.
-/
structure Parted (top : HashOffset) (sent todo dropped tries : List HashOffset) : Prop where
  perm : (sent ++ todo ++ dropped).Perm top.offsets
  tries_mem : ∀ a ∈ tries, a ∈ top.offsets ∧ a.tree.type = .trie
  dropped_below : ∀ d ∈ dropped, ∃ a ∈ tries, a.key <+: d.path
  todo_apart : ∀ y ∈ todo, ∀ a ∈ tries, ¬ a.place <+: y.place

namespace Parted

variable {top x : HashOffset} {sent todo dropped tries new acked mid : List HashOffset}
  {later : List PendingTrieNode}

theorem start (top : HashOffset) : Parted top [] top.offsets [] [] where
  perm := by simp
  tries_mem := by simp
  dropped_below := by simp
  todo_apart := by simp

theorem nodup (h : Parted top sent todo dropped tries) : (sent ++ todo ++ dropped).Nodup :=
  h.perm.nodup_iff.mpr (HashOffset.nodup_offsets top)

theorem mem_todo (h : Parted top sent todo dropped tries) {y : HashOffset} (hy : y ∈ todo) :
    y ∈ top.offsets := by
  apply h.perm.subset
  apply List.mem_append_left
  exact List.mem_append_right _ hy

/-- What a pending trie leaves is not below what was acknowledged of the same message. -/
theorem not_below_kept (hperm : (new ++ later.flatMap below).Perm x.offsets)
    (hacked : ∀ a ∈ acked, a ∈ new ∧ a.tree.type = .trie) {p : PendingTrieNode} (hp : p ∈ later)
    (hkept : ∀ a ∈ acked, ¬ a.place <+: p.offset.place) {y a : HashOffset} (hy : y ∈ p.below)
    (ha : a ∈ acked) : ¬ a.place <+: y.place := by
  intro hay
  obtain ⟨c, hc, hyc⟩ := List.mem_flatMap.mp hy
  obtain ⟨j, hj, -⟩ := HashOffset.place_of_mem_children (List.mem_of_mem_drop hc)
  have hcy := HashOffset.place_of_mem_offsets hyc
  have hlater : ∀ z ∈ c.offsets, z ∈ later.flatMap below := by
    intro z hz
    exact List.mem_flatMap.mpr ⟨p, hp, List.mem_flatMap.mpr ⟨c, hc, hz⟩⟩
  have hx : ∀ z, z ∈ new ∨ z ∈ later.flatMap below → z ∈ x.offsets := by
    intro z hz
    exact hperm.subset (List.mem_append.mpr hz)
  rcases Nat.lt_or_ge p.offset.place.length a.place.length with hlen | hlen
  -- `a` would be below the child `c`, which is not sent yet
  . have hca : c.place <+: a.place := by
      apply List.prefix_of_prefix_length_le hcy hay
      rw [hj, List.length_append, List.length_singleton]
      omega
    have hac : a ∈ c.offsets := HashOffset.mem_offsets_of_place
      (hx c (Or.inr (hlater c (HashOffset.self_mem_offsets c)))) (hx a (Or.inl (hacked a ha).1)) hca
    have hnodup := hperm.nodup_iff.mpr (HashOffset.nodup_offsets x)
    exact (List.nodup_append.mp hnodup).2.2 a (hacked a ha).1 a (hlater a hac) rfl
  . apply hkept a ha
    apply List.prefix_of_prefix_length_le hay _ hlen
    rw [hj] at hcy
    exact (List.prefix_append _ _).trans hcy

theorem perm_kept (later : List PendingTrieNode) (acked : List HashOffset) :
    ((kept acked later).flatMap below ++
      (later.filter fun p => ∃ a ∈ acked, a.place <+: p.offset.place).flatMap below).Perm
        (later.flatMap below) := by
  rw [← List.flatMap_append]
  apply List.Perm.flatMap_right
  have h := List.filter_append_perm (fun p : PendingTrieNode =>
    decide (∀ a ∈ acked, ¬ a.place <+: p.offset.place)) later
  apply List.Perm.trans _ h
  rw [kept]
  apply List.Perm.append_left
  apply List.Perm.of_eq
  apply List.filter_congr
  intro p hp
  rw [Bool.eq_iff_iff, Bool.not_eq_true', decide_eq_false_iff_not, decide_eq_true_eq]
  push Not
  rfl

/-- A message that starts with `x`. -/
theorem step (h : Parted top sent todo dropped tries) (htodo : todo.Perm (mid ++ x.offsets))
    (hperm : (new ++ later.flatMap below).Perm x.offsets)
    (hlater : ∀ p ∈ later, p.offset ∈ x.offsets)
    (hacked : ∀ a ∈ acked, a ∈ new ∧ a.tree.type = .trie) :
    ∃ dropped, Parted top (sent ++ new) (mid ++ (kept acked later).flatMap below) dropped
      (tries ++ acked) := by
  have hx : ∀ z ∈ x.offsets, z ∈ todo := fun z hz => htodo.symm.subset (List.mem_append_right _ hz)
  have hnew : ∀ z, z ∈ new ∨ z ∈ later.flatMap below → z ∈ x.offsets := by
    intro z hz
    exact hperm.subset (List.mem_append.mpr hz)
  have hxtop : x ∈ top.offsets := h.mem_todo (hx x (HashOffset.self_mem_offsets x))
  have hkept := perm_kept later acked
  refine ⟨dropped ++ (later.filter fun p => ∃ a ∈ acked, a.place <+: p.offset.place).flatMap below,
    ?_, ?_, ?_, ?_⟩
  . classical
    rw [List.perm_iff_count]
    intro z
    have h1 := List.perm_iff_count.mp h.perm z
    have h2 := List.perm_iff_count.mp htodo z
    have h3 := List.perm_iff_count.mp hperm z
    have h4 := List.perm_iff_count.mp hkept z
    simp only [List.count_append] at h1 h2 h3 h4 ⊢
    omega
  . intro a ha
    rcases List.mem_append.mp ha with ha | ha
    . exact h.tries_mem a ha
    . exact ⟨h.mem_todo (hx a (hnew a (Or.inl (hacked a ha).1))), (hacked a ha).2⟩
  . intro d hd
    rcases List.mem_append.mp hd with hd | hd
    . obtain ⟨a, ha, had⟩ := h.dropped_below d hd
      exact ⟨a, List.mem_append_left _ ha, had⟩
    . obtain ⟨p, hp, hdp⟩ := List.mem_flatMap.mp hd
      obtain ⟨hp, hpruned⟩ := List.mem_filter.mp hp
      obtain ⟨a, ha, hap⟩ := of_decide_eq_true hpruned
      refine ⟨a, List.mem_append_right _ ha, ?_⟩
      have hpa : p.offset ∈ a.offsets := HashOffset.mem_offsets_of_place
        (hnew a (Or.inl (hacked a ha).1)) (hlater p hp) hap
      obtain ⟨c, hc, hdc⟩ := List.mem_flatMap.mp (mem_below hdp)
      obtain ⟨-, -, hpath⟩ := HashOffset.place_of_mem_children hc
      have hcd := HashOffset.path_of_mem_offsets hdc
      rw [hpath] at hcd
      exact (HashOffset.key_of_mem_offsets hpa).trans hcd
  . intro y hy a ha
    rcases List.mem_append.mp hy with hy | hy
    . have hytodo : y ∈ todo := htodo.symm.subset (List.mem_append_left _ hy)
      rcases List.mem_append.mp ha with ha | ha
      . exact h.todo_apart y hytodo a ha
      . intro hay
        have hax := hnew a (Or.inl (hacked a ha).1)
        have hyx : y ∈ x.offsets := HashOffset.mem_offsets_of_place hxtop (h.mem_todo hytodo)
          ((HashOffset.place_of_mem_offsets hax).trans hay)
        have hnodup := (List.nodup_append.mp (List.nodup_append.mp h.nodup).1).2.1
        have hdisj := (List.nodup_append.mp (htodo.nodup_iff.mp hnodup)).2.2
        exact hdisj y hy y hyx rfl
    . obtain ⟨p, hp, hyp⟩ := List.mem_flatMap.mp hy
      obtain ⟨hp, hpkept⟩ := List.mem_filter.mp hp
      have hyx := hnew y (Or.inr (List.mem_flatMap.mpr ⟨p, hp, hyp⟩))
      rcases List.mem_append.mp ha with ha | ha
      . exact h.todo_apart y (hx y hyx) a ha
      . exact not_below_kept hperm hacked hp (of_decide_eq_true hpkept) hyp ha

/-- What is still to do is not below an acknowledged path. -/
theorem not_pruned (h : Parted top sent todo dropped tries) (hwf : top.tree.WF) (htop : top ∈ sent)
    {y : HashOffset} (hy : y ∈ todo) : ¬ ∃ a ∈ tries, a.key <+: y.path := by
  intro ⟨a, ha, hay⟩
  have hne : y ≠ top := by
    rintro rfl
    have hnodup := (List.nodup_append.mp h.nodup).1
    exact (List.nodup_append.mp hnodup).2.2 y htop y hy rfl
  have hmem := HashOffset.mem_offsets_of_path hwf (h.tries_mem a ha).1 (h.tries_mem a ha).2
    (h.mem_todo hy) hne hay
  exact h.todo_apart y hy a ha (HashOffset.place_of_mem_offsets hmem)

end Parted

/-- After the first message. -/
structure Inv (t : HashTree) (s : TransferPhase) : Prop where
  lastBatch : s.sender.lastBatch = []
  prunePaths : s.receiver.prunePaths = []
  pending : ∀ p ∈ s.sender.pending, p.path = p.offset.key ∧ p.unsent ≠ []
  count : s.receiver.pendingChildren = outstanding s.sender.pending
  start : ⟨[], [], t⟩ ∈ s.sent
  parted : ∃ dropped tries, s.acked = tries.map HashOffset.key ∧
    Parted ⟨[], [], t⟩ s.sent (s.sender.pending.flatMap below) dropped tries

section Steps

variable {find maxDepth} {t : HashTree} {s s' : TransferPhase} {x : HashOffset}
  {new acked todo dropped tries : List HashOffset} {later : List PendingTrieNode}

/-- By its path the sender drops what lies below an acknowledged node. -/
theorem filter_eq_kept (hwf : x.tree.WF) (hr : Round s s' x new later acked) :
    (later.filter fun p => ∀ a ∈ acked, ¬ a.key <+: p.path) = kept acked later := by
  apply List.filter_congr
  intro p hp
  obtain ⟨hpx, hpath, hne⟩ := hr.later_mem p hp
  obtain ⟨c, hc⟩ := List.exists_mem_of_ne_nil _ hne
  have hpt := HashOffset.type_of_child (List.mem_of_mem_drop hc)
  have hnew : ∀ a ∈ acked, a ∈ x.offsets := fun a ha =>
    hr.perm.subset (List.mem_append_left _ (hr.acked_mem a ha).1)
  rw [decide_eq_decide, hpath]
  constructor
  . intro hall a ha hap
    apply hall a ha
    exact HashOffset.key_of_mem_offsets (HashOffset.mem_offsets_of_place (hnew a ha) hpx hap)
  . intro hall a ha hap
    apply hall a ha
    exact HashOffset.place_of_key hwf (hnew a ha) hpx (hr.acked_mem a ha).2 hpt hap

/-- The message that starts with `x` sends `x`. -/
theorem Round.mem_new (hr : Round s s' x new later acked) : x ∈ new := by
  rcases List.mem_append.mp (hr.perm.symm.subset (HashOffset.self_mem_offsets x)) with h | h
  . exact h
  . obtain ⟨p, hp, hxp⟩ := List.mem_flatMap.mp h
    exact absurd (HashOffset.place_of_mem_offsets (hr.later_mem p hp).1)
      (HashOffset.place_below (mem_below hxp)).2

/-- A message keeps the invariant if all that was to do is `x` and what remains. -/
theorem Round.inv (hr : Round s s' x new later acked) (hwf : t.WF)
    (hparted : Parted ⟨[], [], t⟩ s.sent todo dropped tries)
    (hacked : s.acked = tries.map HashOffset.key)
    (htodo : todo.Perm (s.remaining.flatMap below ++ x.offsets))
    (hremaining : ∀ p ∈ s.remaining, p.path = p.offset.key ∧ p.unsent ≠ [])
    (hcount : s.receiver.pendingChildren + (if x.path = [] then 1 else 0) - 1 =
      outstanding s.remaining)
    (hstart : ⟨[], [], t⟩ ∈ s.sent ++ new) : Inv t s' := by
  have hx : x ∈ HashOffset.offsets ⟨[], [], t⟩ := by
    apply hparted.mem_todo
    exact htodo.symm.subset (List.mem_append_right _ (HashOffset.self_mem_offsets x))
  have hkept := filter_eq_kept (HashOffset.wf_of_mem_offsets hwf hx) hr
  obtain ⟨dropped', hstep⟩ := hparted.step htodo hr.perm (fun p hp => (hr.later_mem p hp).1)
    hr.acked_mem
  refine ⟨hr.lastBatch, hr.prunePaths, ?_, ?_, ?_, dropped', tries ++ acked, ?_, ?_⟩
  . rw [hr.pending]
    intro p hp
    rcases List.mem_append.mp hp with hp | hp
    . exact hremaining p hp
    . exact (hr.later_mem p (List.mem_filter.mp hp).1).2
  . rw [hr.count, hcount, hr.pending, hkept, outstanding_append]
    rfl
  . rw [hr.sent]
    exact hstart
  . rw [hr.acks, hacked, List.map_append]
  . rw [hr.sent, hr.pending, hkept, List.flatMap_append]
    exact hstep

variable (maxDepth) (look : Key → NodeTypes → Option (List UInt8))

/-- The first message. -/
theorem inv_first {capacity : Nat} (hwf : t.WF)
    (hmeets : (begin capacity).Meets find (some t)) :
    ∃ new, new ≠ [] ∧ (begin capacity).batch find maxDepth (some t) = new ∧
      ((begin capacity).round find maxDepth (some t) look).sent = new ∧
      Inv t ((begin capacity).round find maxDepth (some t) look) := by
  have hx : (begin capacity).next (some t) = some ⟨[], [], t⟩ := rfl
  obtain ⟨new, later, acked, hr, hbatch⟩ := @round_spec find maxDepth _ look _ _ hx hwf
    (hmeets.fits _ hx) (fun p hp => absurd hp (by simp [begin])) rfl rfl
  have hmem := hr.mem_new
  refine ⟨new, List.ne_nil_of_mem hmem, hbatch, by simpa [begin] using hr.sent, ?_⟩
  exact hr.inv hwf (Parted.start _) rfl (List.Perm.refl _) (by simp [remaining, begin]) rfl
    (List.mem_append_right _ hmem)

/-- Another message. -/
theorem Inv.step (h : Inv t s) (hwf : t.WF)
    (hmeets : s.Meets find (some t)) (hpending : s.sender.pending ≠ []) :
    ∃ new, new ≠ [] ∧ s.batch find maxDepth (some t) = new ∧
      (s.round find maxDepth (some t) look).sent = s.sent ++ new ∧
      Inv t (s.round find maxDepth (some t) look) := by
  obtain ⟨front, p, hp⟩ : ∃ front p, s.sender.pending = front ++ [p] :=
    ⟨_, _, (List.dropLast_append_getLast hpending).symm⟩
  have hlast : s.sender.pending.getLast? = some p := by rw [hp, List.getLast?_concat]
  obtain ⟨hpath, hne⟩ := h.pending p (by rw [hp]; simp)
  obtain ⟨x, rest, hx⟩ : ∃ x rest, p.unsent = x :: rest := List.exists_cons_of_ne_nil hne
  have hlt : p.nextChild < p.offset.children.length := by
    have := congrArg List.length hx
    rw [unsent, List.length_drop, List.length_cons] at this
    omega
  have hget : p.offset.children[p.nextChild]? = some x := by
    rw [← List.head?_drop]
    rw [unsent] at hx
    rw [hx]
    rfl
  have hrest : rest = p.offset.children.drop (p.nextChild + 1) := by
    rw [unsent, List.drop_eq_getElem_cons hlt] at hx
    exact (List.cons.inj hx).2.symm
  obtain ⟨j, -, hxpath⟩ := HashOffset.place_of_mem_children (List.mem_of_getElem? hget)
  rw [← hpath] at hxpath
  have hnext : s.next (some t) = some x := by
    unfold next
    rw [hlast]
    exact hget
  obtain ⟨dropped, tries, hacked, hparted⟩ := h.parted
  have hxbelow : x ∈ s.sender.pending.flatMap below := by
    apply List.mem_flatMap.mpr
    refine ⟨p, by rw [hp]; simp, List.mem_flatMap.mpr ⟨x, ?_, HashOffset.self_mem_offsets x⟩⟩
    rw [hx]
    exact List.mem_cons_self
  have hxwf := HashOffset.wf_of_mem_offsets hwf (hparted.mem_todo hxbelow)
  obtain ⟨new, later, acked, hr, hbatch⟩ := @round_spec find maxDepth _ look _ _ hnext hxwf
    (hmeets.fits _ hnext) (fun q hq => by
      rw [hlast] at hq
      rw [← Option.some.inj hq, hxpath]) h.lastBatch h.prunePaths
  have hmem := hr.mem_new
  refine ⟨new, List.ne_nil_of_mem hmem, hbatch, hr.sent, ?_⟩
  obtain ⟨more, hmore⟩ : ∃ more : List PendingTrieNode, more =
      if p.offset.children.length ≤ p.nextChild + 1 then []
      else [{ p with nextChild := p.nextChild + 1 }] := ⟨_, rfl⟩
  have hremaining : s.remaining = front ++ more := by
    unfold remaining
    rw [hlast, hp, List.dropLast_concat, hmore]
  have hmoreBelow : more.flatMap below = rest.flatMap HashOffset.offsets := by
    rw [hmore, hrest]
    split
    . next hge =>
      rw [List.drop_eq_nil_of_le hge]
      rfl
    . simp [below, unsent]
  have hmoreCount : outstanding more = rest.length := by
    rw [hmore, hrest]
    split
    . next hge =>
      rw [List.drop_eq_nil_of_le hge]
      rfl
    . simp [unsent]
  apply hr.inv hwf hparted hacked
  . rw [hremaining, hp, List.flatMap_append, List.flatMap_append, List.append_assoc]
    apply List.Perm.append_left
    rw [hmoreBelow, List.flatMap_singleton, below, hx, List.flatMap_cons]
    exact List.perm_append_comm
  . intro q hq
    rw [hremaining] at hq
    rcases List.mem_append.mp hq with hq | hq
    . exact h.pending q (by rw [hp]; exact List.mem_append_left _ hq)
    . rw [hmore] at hq
      split at hq
      . exact absurd hq List.not_mem_nil
      . next hge =>
        obtain rfl := List.mem_singleton.mp hq
        refine ⟨hpath, ?_⟩
        rw [unsent, ← List.length_pos_iff, List.length_drop]
        dsimp only
        omega
  . rw [h.count, hp, hremaining, outstanding_append, outstanding_append, hmoreCount,
      outstanding_singleton, hx, hxpath, if_neg (hmeets.named p hlast), List.length_cons]
    push_cast
    omega
  . exact List.mem_append_left _ h.start

end Steps

section Run

variable {find maxDepth} {t : HashTree} {s : TransferPhase} {capacity : Nat}
  {hashRoots : Nat → Option HashTree}

theorem Inv.nodup (h : Inv t s) : s.sent.Nodup := by
  obtain ⟨dropped, tries, -, hparted⟩ := h.parted
  exact (List.nodup_append.mp (List.nodup_append.mp hparted.nodup).1).1

theorem Inv.length_sent_le (h : Inv t s) : s.sent.length ≤ (nodes (some t)).length := by
  obtain ⟨dropped, tries, -, hparted⟩ := h.parted
  have := hparted.perm.length_eq
  rw [List.length_append, List.length_append] at this
  rw [nodes]
  omega

theorem Inv.sends_iff (h : Inv t s) (n : Nat) : s.Sends (n + 1) ↔ s.sender.pending ≠ [] := by
  simp [Sends, TransferTrieSender.hasPending, h.lastBatch]

/-- A node that is not sent waits below a pending one, or it is pruned. -/
theorem Inv.cases (h : Inv t s) (hwf : t.WF) {x : HashOffset} (hx : x ∈ nodes (some t)) :
    x ∈ s.sent ∨ x ∈ s.sender.pending.flatMap below ∧ ¬ s.Pruned x ∨ s.Pruned x := by
  obtain ⟨dropped, tries, hacked, hparted⟩ := h.parted
  rcases List.mem_append.mp (hparted.perm.symm.subset hx) with hx | hx
  . rcases List.mem_append.mp hx with hx | hx
    . exact Or.inl hx
    . refine Or.inr (Or.inl ⟨hx, ?_⟩)
      intro ⟨q, hq, hpre⟩
      rw [hacked] at hq
      obtain ⟨a, ha, rfl⟩ := List.mem_map.mp hq
      exact hparted.not_pruned hwf h.start hx ⟨a, ha, hpre⟩
  . obtain ⟨a, ha, hpre⟩ := hparted.dropped_below x hx
    refine Or.inr (Or.inr ⟨a.key, ?_, hpre⟩)
    rw [hacked]
    exact List.mem_map_of_mem ha

/-- Every pending node has an offset that is not pruned and not sent. -/
theorem Inv.exists_unsent (h : Inv t s) (hwf : t.WF) (hpending : s.sender.pending ≠ []) :
    ∃ x ∈ nodes (some t), ¬ s.Pruned x ∧ x ∉ s.sent := by
  obtain ⟨p, hp⟩ := List.exists_mem_of_ne_nil _ hpending
  obtain ⟨x, hx⟩ := List.exists_mem_of_ne_nil _ (h.pending p hp).2
  have hbelow : x ∈ s.sender.pending.flatMap below :=
    List.mem_flatMap.mpr ⟨p, hp, List.mem_flatMap.mpr ⟨x, hx, HashOffset.self_mem_offsets x⟩⟩
  obtain ⟨dropped, tries, hacked, hparted⟩ := h.parted
  refine ⟨x, hparted.mem_todo hbelow, ?_, ?_⟩
  . intro ⟨q, hq, hpre⟩
    rw [hacked] at hq
    obtain ⟨a, ha, rfl⟩ := List.mem_map.mp hq
    exact hparted.not_pruned hwf h.start hbelow ⟨a, ha, hpre⟩
  . intro hsent
    have hnodup := (List.nodup_append.mp hparted.nodup).1
    exact (List.nodup_append.mp hnodup).2.2 x hsent x hbelow rfl

theorem outstanding_eq_zero (h : Inv t s) : outstanding s.sender.pending = 0 ↔
    s.sender.pending = [] := by
  constructor
  . intro hzero
    by_contra hne
    obtain ⟨p, l, hp⟩ := List.exists_cons_of_ne_nil hne
    have hlen := List.length_pos_iff.mpr (h.pending p (by rw [hp]; exact List.mem_cons_self)).2
    rw [hp, ← List.singleton_append, outstanding_append, outstanding_singleton] at hzero
    omega
  . intro hnil
    rw [hnil]
    rfl

/-- The receiver waits for nothing exactly if everything that is not pruned has arrived. -/
theorem Inv.count_eq_zero (h : Inv t s) (hwf : t.WF) :
    s.receiver.pendingChildren = 0 ↔ ∀ x ∈ nodes (some t), ¬ s.Pruned x → x ∈ s.sent := by
  rw [h.count, Int.natCast_eq_zero, outstanding_eq_zero h]
  constructor
  . intro hnil x hx hpruned
    rcases h.cases hwf hx with hx | ⟨hx, -⟩ | hx
    . exact hx
    . rw [hnil] at hx
      exact absurd hx List.not_mem_nil
    . exact absurd hx hpruned
  . intro hall
    by_contra hne
    obtain ⟨x, hx, hpruned, hsent⟩ := h.exists_unsent hwf hne
    exact hsent (hall x hx hpruned)

/-- What the messages up to the `n`-th need. -/
def MeetsUpTo (find : Key → LeafNode) (maxDepth : Nat) (root : Option HashTree) (capacity : Nat)
    (hashRoots : Nat → Option HashTree) (n : Nat) : Prop :=
  ∀ i < n, (run find maxDepth root capacity hashRoots i).Sends i →
    (run find maxDepth root capacity hashRoots i).Meets find root

theorem inv_run (hwf : t.WF) {n : Nat}
    (h : MeetsUpTo find maxDepth (some t) capacity hashRoots (n + 1)) :
    Inv t (run find maxDepth (some t) capacity hashRoots (n + 1)) := by
  induction n with
  | zero =>
    obtain ⟨new, -, -, -, hinv⟩ := inv_first maxDepth (HashTree.lookup (hashRoots 0)) hwf
      (h 0 (by omega) (Or.inl rfl))
    exact hinv
  | succ n ih =>
    have hinv := ih (fun i hi => h i (by omega))
    rw [run]
    split
    . next hsends =>
      obtain ⟨new, -, -, -, hinv'⟩ := hinv.step maxDepth
        (HashTree.lookup (hashRoots (n + 1))) hwf (h (n + 1) (by omega) hsends)
        ((hinv.sends_iff n).mp hsends)
      exact hinv'
    . exact hinv

theorem Inv.inStep (h : Inv t s) (hwf : t.WF) : Lockstep (some t) s where
  once := h.nodup
  nodes := by
    obtain ⟨dropped, tries, -, hparted⟩ := h.parted
    intro x hx
    apply hparted.perm.subset
    apply List.mem_append_left
    exact List.mem_append_left _ hx
  complete := by
    intro hover x hx
    rcases h.cases hwf hx with hx | ⟨hx, -⟩ | hx
    . exact Or.inr hx
    . have hnil : s.sender.pending = [] := by
        simpa [TransferTrieSender.hasPending, h.lastBatch] using hover
      rw [hnil] at hx
      exact absurd hx List.not_mem_nil
    . exact Or.inl hx
  arrived := h.count_eq_zero hwf
  leave := by
    rw [h.count, Int.natCast_eq_zero, outstanding_eq_zero h]
    simp [TransferTrieSender.hasPending, h.lastBatch]

/-- A message sends nodes that were not sent before, and at least one. -/
theorem batch_run (hwf : t.WF) {n : Nat}
    (h : MeetsUpTo find maxDepth (some t) capacity hashRoots (n + 1))
    (hsends : (run find maxDepth (some t) capacity hashRoots n).Sends n) :
    ∃ new, new ≠ [] ∧
      (run find maxDepth (some t) capacity hashRoots n).batch find maxDepth (some t) = new ∧
      (run find maxDepth (some t) capacity hashRoots (n + 1)).sent =
        (run find maxDepth (some t) capacity hashRoots n).sent ++ new := by
  have hmeets := h n (by omega) hsends
  rw [run, if_pos hsends]
  cases n with
  | zero =>
    obtain ⟨new, hne, hbatch, hsent, -⟩ :=
      inv_first maxDepth (HashTree.lookup (hashRoots 0)) hwf hmeets
    exact ⟨new, hne, hbatch, hsent⟩
  | succ n =>
    have hinv : Inv t (run find maxDepth (some t) capacity hashRoots (n + 1)) :=
      inv_run hwf (fun i hi => h i (by omega))
    obtain ⟨new, hne, hbatch, hsent, -⟩ := hinv.step maxDepth
      (HashTree.lookup (hashRoots (n + 1))) hwf hmeets ((hinv.sends_iff n).mp hsends)
    exact ⟨new, hne, hbatch, hsent⟩

theorem le_length_sent (hwf : t.WF) {n : Nat}
    (h : MeetsUpTo find maxDepth (some t) capacity hashRoots n)
    (hsends : ∀ i < n, (run find maxDepth (some t) capacity hashRoots i).Sends i) :
    n ≤ (run find maxDepth (some t) capacity hashRoots n).sent.length := by
  induction n with
  | zero => exact Nat.zero_le _
  | succ n ih =>
    have hle := ih (fun i hi => h i (by omega)) (fun i hi => hsends i (by omega))
    obtain ⟨new, hne, -, hsent⟩ := batch_run hwf h (hsends n (by omega))
    have hpos := List.length_pos_iff.mpr hne
    rw [hsent, List.length_append]
    omega

variable (find maxDepth capacity hashRoots)

/-- Without a hash trie one empty message is sent. -/
theorem run_none (n : Nat) :
    (run find maxDepth none capacity hashRoots n).sent = [] ∧
      (run find maxDepth none capacity hashRoots n).sender.pending = [] ∧
      (run find maxDepth none capacity hashRoots n).sender.lastBatch = [] ∧
      (run find maxDepth none capacity hashRoots n).receiver.pendingChildren = 0 := by
  induction n with
  | zero => exact ⟨rfl, rfl, rfl, rfl⟩
  | succ n ih =>
    rw [run]
    split
    . obtain ⟨hsent, hpending, hbatch, hcount⟩ := ih
      obtain ⟨s, hs⟩ : ∃ s, s = run find maxDepth none capacity hashRoots n := ⟨_, rfl⟩
      rw [← hs] at hsent hpending hbatch hcount ⊢
      have hmsg : s.message find maxDepth none = (⟨[], 0, none, (s.sender.transfer.begin []).size⟩,
          { s.sender with transfer := s.sender.transfer.begin [] }) := by
        unfold message TransferTrieSender.fillBuffer
        cases s
        dsimp only at hpending ⊢
        rw [hpending]
        rfl
      unfold round
      rw [hmsg]
      dsimp only [ReplicationReceiver.processReceivedNodes, ReplicationReceiver.sendPruneAck,
        TransferTrieSender.processAck]
      rw [if_pos rfl, hsent, hpending, hbatch]
      exact ⟨rfl, rfl, rfl, hcount⟩
    . exact ih

theorem not_sends_none (n : Nat) :
    ¬ (run find maxDepth none capacity hashRoots (n + 1)).Sends (n + 1) := by
  obtain ⟨-, hpending, hbatch, -⟩ := run_none find maxDepth capacity hashRoots (n + 1)
  simp [Sends, TransferTrieSender.hasPending, hpending, hbatch]

end Run

/-- A trie with two leaves below the string `c`. -/
def forked (c : Key) : HashTree :=
  .node ⟨none, 1, [0]⟩ c
    [(some 0x62, .leaf ⟨none, 1, [1]⟩ (some 0x62)), (some 0x63, .leaf ⟨none, 1, [2]⟩ (some 0x63))]

/-- The leaf `b` with 10 bytes and the leaf `c` with 40. -/
def forkedLeaf (path : Key) : LeafNode :=
  if path.getLast? = some 0x62 then ⟨[0x62], false, List.replicate 10 0⟩
  else ⟨[0x63], false, List.replicate 40 0⟩

theorem wf_forked (c : Key) : (forked c).WF := by
  unfold forked
  rw [HashTree.wf_node]
  refine ⟨by simp, by decide, ?_, ?_⟩
  . intro x hx
    simp only [List.mem_cons, List.not_mem_nil, or_false] at hx
    rcases hx with rfl | rfl
    . exact ⟨rfl, by simp⟩
    . exact ⟨rfl, by simp⟩
  . intro x hx
    simp only [List.mem_cons, List.not_mem_nil, or_false] at hx
    rcases hx with rfl | rfl
    . exact HashTree.wf_leaf
    . exact HashTree.wf_leaf

end TransferPhase
end Leaves
