import Leaves.Memory.MemManager

/-!
The pages of a storage during a write transaction: what `_DB` and `_Transaction` do to allocate,
free and write the page of a node. A page belongs to the transaction that allocated it, the pages
of earlier transactions are only copied.
-/

namespace Leaves

/-- `PageHeader` and the node behind it. -/
structure Page where
  /-- the transaction that has allocated the page -/
  txnId : Nat
  slotId : Nat
  /-- used bytes in the page -/
  used : Nat
  node : Node
  deriving DecidableEq, Repr, Inhabited

/-- Why an operation does not end: the exceptions, and a node that is bigger than a page. -/
inductive Fault where
  | noValidPosition
  | keyTooBig
  | pageOverflow
  deriving DecidableEq, Repr, Inhabited

structure Heap where
  page : Nat → Page
  mem : MemManager
  storage : Storage
  /-- the number of areas the storage has handed out -/
  areaCount : Nat
  /-- the id of the active transaction -/
  txnId : Nat
  /-- All transactions with an id bigger than this may not be recycled. -/
  startTxnId : Nat

namespace Heap

/-- The node at an offset. -/
def rd (h : Heap) (a : Addr) : Node := (h.page a).node

def needsCow (h : Heap) (a : Addr) : Bool := (h.page a).txnId != h.txnId

def setPage (h : Heap) (a : Addr) (page : Page) : Heap :=
  { h with page := fun b => if b = a then page else h.page b }

/-- Writing the node of a page in place. -/
def setNode (h : Heap) (a : Addr) (node : Node) : Heap :=
  h.setPage a { h.page a with node }

/-- `alloc_slot`: there is no size class for a page that is bigger than the biggest one. -/
def allocSlot (h : Heap) (slot : Nat) : Except Fault (Addr × Heap) :=
  if PAGE_SIZES_COUNT ≤ slot then
    .error .pageOverflow
  else
    let (a, mem, grown) := h.mem.alloc slot h.startTxnId (h.storage.area h.areaCount)
    .ok (a,
      { h with mem, areaCount := h.areaCount + grown.toNat }.setPage a
        { h.page a with txnId := h.txnId, slotId := slot })

/-- `alloc_node`: a page for a node of `size` bytes, with the node that is written into it. -/
def allocNode (h : Heap) (size : Nat) (node : Node) : Except Fault (Addr × Heap) := do
  let (a, h) ← h.allocSlot (assignSlot (size + PAGE_HEADER_SIZE))
  .ok (a, h.setPage a { h.page a with used := size, node })

def free (h : Heap) (a : Addr) : Heap :=
  { h with mem := h.mem.free (h.page a).slotId ⟨a, h.txnId⟩ }

/-- The page is not in use. -/
def Avail (h : Heap) (a : Addr) : Prop := h.mem.Avail h.storage h.areaCount a

/-- The page may be handed out in this transaction. -/
def Free (h : Heap) (a : Addr) : Prop := h.mem.Free h.storage h.areaCount h.startTxnId a

/-- The pages `l` are in use, each for one node. -/
structure Uses (h : Heap) (l : List Addr) : Prop where
  sound : h.mem.Sound h.storage h.areaCount
  recycle : h.startTxnId ≤ h.txnId
  nodup : l.Nodup
  ne_zero : ∀ a ∈ l, a ≠ 0
  not_avail : ∀ a ∈ l, ¬ h.Avail a
  slot : ∀ a ∈ l, (h.page a).slotId < PAGE_SIZES_COUNT

/--
What a transaction leaves alone: the pages of other transactions, as long as they may not be
recycled.
-/
structure Keeps (h h' : Heap) : Prop where
  txnId : h'.txnId = h.txnId
  startTxnId : h'.startTxnId = h.startTxnId
  page : ∀ a, ¬ h.Free a → h.needsCow a = true → h'.page a = h.page a
  free : ∀ a, h'.Free a → h.Free a

theorem Keeps.refl (h : Heap) : h.Keeps h :=
  ⟨rfl, rfl, fun _ _ _ => rfl, fun _ ha => ha⟩

theorem Keeps.trans {h h' h'' : Heap} (h1 : h.Keeps h') (h2 : h'.Keeps h'') : h.Keeps h'' := by
  refine ⟨h2.txnId.trans h1.txnId, h2.startTxnId.trans h1.startTxnId, ?_, ?_⟩
  . intro a hfree hcow
    have hpage := h1.page a hfree hcow
    rw [← hpage]
    refine h2.page a (fun ha => hfree (h1.free a ha)) ?_
    rw [needsCow, hpage, h1.txnId]
    exact hcow
  . intro a ha
    exact h1.free a (h2.free a ha)

theorem Uses.perm {h : Heap} {l l' : List Addr} (hu : h.Uses l) (hp : l.Perm l') : h.Uses l' := by
  refine ⟨hu.sound, hu.recycle, hp.nodup_iff.mp hu.nodup, ?_, ?_, ?_⟩
  . exact fun a ha => hu.ne_zero a (hp.mem_iff.mpr ha)
  . exact fun a ha => hu.not_avail a (hp.mem_iff.mpr ha)
  . exact fun a ha => hu.slot a (hp.mem_iff.mpr ha)

section Fields

variable (h : Heap) (a b : Addr) (page : Page) (node : Node) (used : Nat)

@[simp]
theorem page_setPage : (h.setPage a page).page b = if b = a then page else h.page b := rfl

@[simp]
theorem page_setNode :
    (h.setNode a node).page b = if b = a then { h.page a with node } else h.page b := rfl

@[simp]
theorem page_free : (h.free a).page = h.page := rfl

@[simp]
theorem txnId_setPage : (h.setPage a page).txnId = h.txnId := rfl

@[simp]
theorem txnId_setNode : (h.setNode a node).txnId = h.txnId := rfl

@[simp]
theorem txnId_free : (h.free a).txnId = h.txnId := rfl

@[simp]
theorem rd_setNode : (h.setNode a node).rd b = if b = a then node else h.rd b := by
  simp only [rd, page_setNode]
  split <;> rfl

end Fields

/-- What `allocSlot` does: the page is used for nothing else and belongs to the transaction. -/
structure Allocates (h : Heap) (l : List Addr) (a : Addr) (h' : Heap) : Prop where
  uses : h'.Uses (a :: l)
  keeps : h.Keeps h'
  page : ∀ b, b ≠ a → h'.page b = h.page b
  owned : h'.needsCow a = false
  free : h.Free a

theorem allocSlot_allocates {h : Heap} {l : List Addr} (hu : h.Uses l) {slot : Nat}
    (hslot : slot < PAGE_SIZES_COUNT) :
    ∃ a h', h.allocSlot slot = .ok (a, h') ∧ h.Allocates l a h' ∧ h'.rd a = h.rd a ∧
      (h'.page a).slotId = slot := by
  have ha := MemManager.alloc_allocates hu.sound hslot h.startTxnId
  obtain ⟨⟨a, mem, grown⟩, halloc⟩ :
      ∃ x, h.mem.alloc slot h.startTxnId (h.storage.area h.areaCount) = x := ⟨_, rfl⟩
  rw [halloc] at ha
  simp only at ha
  let h1 : Heap := { h with mem, areaCount := h.areaCount + grown.toNat }
  refine ⟨a, h1.setPage a { h.page a with txnId := h.txnId, slotId := slot }, ?_,
    ⟨?_, ?_, ?_, ?_, ha.free⟩, ?_, ?_⟩
  . rw [allocSlot, if_neg (by omega), halloc]
  . have hnot : a ∉ l := fun hmem => hu.not_avail a hmem ha.free.avail
    refine ⟨ha.sound, hu.recycle, List.nodup_cons.mpr ⟨hnot, hu.nodup⟩, ?_, ?_, ?_⟩
    . intro b hb
      rcases List.mem_cons.mp hb with rfl | hb
      . exact hu.sound.ne_zero ha.free.avail
      . exact hu.ne_zero b hb
    . intro b hb hav
      have hav := ha.avail' b hav
      rcases List.mem_cons.mp hb with rfl | hb
      . exact hav.2 rfl
      . exact hu.not_avail b hb hav.1
    . intro b hb
      rw [page_setPage]
      split
      next => exact hslot
      next hne =>
        rcases List.mem_cons.mp hb with rfl | hb
        . exact absurd rfl hne
        . exact hu.slot b hb
  . refine ⟨rfl, rfl, ?_, ha.free'⟩
    intro b hfree _
    rw [page_setPage, if_neg]
    rintro rfl
    exact hfree ha.free
  . intro b hb
    rw [page_setPage, if_neg hb]
  . simp [needsCow, h1]
  . simp [rd]
  . simp

theorem assignSlot_lt {size : Nat} (h : fitsPage size = true) :
    assignSlot (size + PAGE_HEADER_SIZE) < PAGE_SIZES_COUNT := by
  rw [assignSlot]
  refine List.findIdx_lt_length_of_exists ⟨4096, by decide, ?_⟩
  rw [fitsPage_iff] at h
  rw [decide_eq_true_eq, PAGE_HEADER_SIZE]
  omega

theorem setPage_allocates {h h' : Heap} {l : List Addr} {a : Addr} (ha : h.Allocates l a h')
    (page : Page) (htxn : page.txnId = (h'.page a).txnId) (hslot : page.slotId = (h'.page a).slotId)
    : h.Allocates l a (h'.setPage a page) := by
  have hpage : ∀ b, b ≠ a → (h'.setPage a page).page b = h.page b := by
    intro b hb
    rw [page_setPage, if_neg hb]
    exact ha.page b hb
  refine ⟨⟨ha.uses.sound, ha.uses.recycle, ha.uses.nodup, ha.uses.ne_zero, ha.uses.not_avail, ?_⟩,
    ⟨ha.keeps.txnId, ha.keeps.startTxnId, ?_, ha.keeps.free⟩, hpage, ?_, ha.free⟩
  . intro b hb
    rw [page_setPage]
    split
    next heq =>
      rw [hslot]
      exact ha.uses.slot a (by simp)
    next => exact ha.uses.slot b hb
  . intro b hfree hcow
    have hb : h'.page b = h.page b := ha.keeps.page b hfree hcow
    have hne : b ≠ a := by
      rintro rfl
      have := ha.owned
      rw [needsCow, hb, ha.keeps.txnId] at this
      rw [needsCow, this] at hcow
      exact absurd hcow (by decide)
    exact hpage b hne
  . have := ha.owned
    rw [needsCow] at this ⊢
    rwa [page_setPage, if_pos rfl, htxn]

/-- A page that may not be handed out stays as it is. -/
theorem Allocates.page_of_not_free {h h' : Heap} {l : List Addr} {a b : Addr}
    (ha : h.Allocates l a h') (hb : ¬ h.Free b) : h'.page b = h.page b :=
  ha.page b fun heq => hb (heq ▸ ha.free)

theorem allocNode_allocates {h : Heap} {l : List Addr} (hu : h.Uses l) {n : Nat}
    (hfits : fitsPage n = true) (node : Node) :
    ∃ a h', h.allocNode n node = .ok (a, h') ∧ h.Allocates l a h' ∧ h'.rd a = node := by
  obtain ⟨a, h1, heq, ha, -⟩ := allocSlot_allocates hu (assignSlot_lt hfits)
  refine ⟨a, h1.setPage a { h1.page a with used := n, node }, ?_, setPage_allocates ha _ rfl rfl,
    ?_⟩
  . rw [allocNode, heq]
    rfl
  . simp [rd]

/-- There is no page for a node that does not fit. -/
theorem allocNode_of_not_fits (h : Heap) {size : Nat} (hfits : fitsPage size = false) (node : Node) :
    h.allocNode size node = .error .pageOverflow := by
  have hslot : PAGE_SIZES_COUNT ≤ assignSlot (size + PAGE_HEADER_SIZE) := by
    have hall : ∀ s ∈ PAGE_SIZES, s ≤ 4096 := by decide
    have : assignSlot (size + PAGE_HEADER_SIZE) = PAGE_SIZES.length := by
      rw [assignSlot, List.findIdx_eq_length]
      intro s hs
      have := hall s hs
      rw [← Bool.not_eq_true, fitsPage_iff] at hfits
      rw [decide_eq_false_iff_not, PAGE_HEADER_SIZE]
      omega
    rw [this]
    decide
  rw [allocNode, allocSlot, if_pos hslot]
  rfl

theorem setPage_uses {h : Heap} {l : List Addr} (hu : h.Uses l) {a : Addr} {page : Page}
    (hslot : page.slotId = (h.page a).slotId) : (h.setPage a page).Uses l := by
  refine ⟨hu.sound, hu.recycle, hu.nodup, hu.ne_zero, hu.not_avail, ?_⟩
  intro b hb
  rw [page_setPage]
  split
  next heq => exact hslot ▸ heq ▸ hu.slot b hb
  next => exact hu.slot b hb

/-- The transaction may write its own pages. -/
theorem setPage_keeps {h : Heap} {a : Addr} (howned : h.needsCow a = false) (page : Page) :
    h.Keeps (h.setPage a page) := by
  refine ⟨rfl, rfl, ?_, fun _ ha => ha⟩
  intro b _ hcow
  rw [page_setPage, if_neg]
  rintro rfl
  rw [howned] at hcow
  exact absurd hcow (by decide)

theorem setNode_uses {h : Heap} {l : List Addr} (hu : h.Uses l) (a : Addr) (node : Node) :
    (h.setNode a node).Uses l :=
  setPage_uses hu rfl

theorem setNode_keeps {h : Heap} {a : Addr} (howned : h.needsCow a = false) (node : Node) :
    h.Keeps (h.setNode a node) :=
  setPage_keeps howned _

theorem free_uses {h : Heap} {l : List Addr} {a : Addr} (hu : h.Uses (a :: l)) : (h.free a).Uses l := by
  have hnot := (List.nodup_cons.mp hu.nodup).1
  refine ⟨?_, hu.recycle, (List.nodup_cons.mp hu.nodup).2, ?_, ?_, ?_⟩
  . exact MemManager.free_sound hu.sound (hu.ne_zero a (by simp)) (hu.not_avail a (by simp))
  . exact fun b hb => hu.ne_zero b (by simp [hb])
  . intro b hb hav
    rcases MemManager.avail_free hav with hav | rfl
    . exact hu.not_avail b (by simp [hb]) hav
    . exact hnot hb
  . exact fun b hb => hu.slot b (by simp [hb])

/-- A page that is freed may still be read by older transactions. -/
theorem free_keeps {h : Heap} (hle : h.startTxnId ≤ h.txnId) (a : Addr) : h.Keeps (h.free a) :=
  ⟨rfl, rfl, fun _ _ _ => rfl, fun _ hb => MemManager.free_free hle hb⟩

end Heap
end Leaves
