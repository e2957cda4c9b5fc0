import Leaves.Db.Snapshots

/-!
What holds between two calls: the tries of the transactions that somebody reads are stored in pages
that neither the committed nor the active transaction may hand out.
-/

namespace Leaves

open OrdMap (Related)

/-- The page is in one of the areas that have been handed out. -/
def Storage.Within (st : Storage) (count : Nat) (a : Nat) : Prop :=
  ∃ i < count, st.area i ≤ a ∧ a < st.area i + AREA_SIZE

theorem Storage.Within.mono {st : Storage} {n m a : Nat} (h : st.Within n a) (hle : n ≤ m) :
    st.Within m a := by
  obtain ⟨i, hi, ha⟩ := h
  exact ⟨i, Nat.lt_of_lt_of_le hi hle, ha⟩

theorem Storage.Within.not_future {st : Storage} {n a : Nat} (h : st.Within n a) :
    ¬st.Future n a := by
  obtain ⟨i, hi, hle, hlt⟩ := h
  rintro ⟨j, hj, hle', hlt'⟩
  rcases st.disjoint i j (by omega) with hd | hd
  . omega
  . omega

theorem Storage.Within.congr {st st' : Storage} {n a : Nat} (h : st.Within n a)
    (heq : ∀ i < n, st'.area i = st.area i) : st'.Within n a := by
  obtain ⟨i, hi, ha⟩ := h
  exact ⟨i, hi, by rwa [heq i hi]⟩

namespace MemManager

/-- More may be handed out if fewer transactions are read. -/
theorem Free.mono {m : MemManager} {st : Storage} {count v w : Nat} {a : Addr}
    (h : m.Free st count v a) (hle : v ≤ w) : m.Free st count w a := by
  rcases h with ⟨s, x, hx, hlink, hlt⟩ | h
  . exact Or.inl ⟨s, x, hx, hlink, Nat.lt_of_lt_of_le hlt hle⟩
  . exact Or.inr h

end MemManager

namespace Heap

variable {h h' : Heap} {v : Nat} {a : Addr}

/-- The page may be handed out if the transactions before `v` are not read. -/
def FreeAt (h : Heap) (v : Nat) (a : Addr) : Prop := h.mem.Free h.storage h.areaCount v a

/-- A transaction that is read keeps its pages. -/
theorem Works.freeAt (hw : h.Works h') (hk : h.Keeps h') (hstart : h.startTxnId ≤ v)
    (hv : v ≤ h.txnId) (hfree : h'.FreeAt v a) : h.FreeAt v a := by
  rcases hfree with ⟨s, x, hx, hlink, hlt⟩ | hfree
  . rcases hw.queued s x hx with hx | hx
    . exact Or.inl ⟨s, x, hx, hlink, hlt⟩
    . omega
  . exact MemManager.Free.mono (hk.free a (Or.inr hfree)) hstart

theorem Keeps.page_of_version (hk : h.Keeps h') (hstart : h.startTxnId ≤ v) (hv : v < h.txnId)
    (hfree : ¬h.FreeAt v a) (hstamp : (h.page a).txnId ≤ v) : h'.page a = h.page a := by
  refine hk.page a (fun hf => hfree (MemManager.Free.mono hf hstart)) ?_
  rw [needsCow, bne_iff_ne]
  omega

/-- What the memory knows is in the areas that have been handed out. -/
def Covers (h : Heap) (l : List Addr) : Prop :=
  ∀ a, a ∈ l ∨ h.mem.Queued a ∨ h.mem.Uncarved a → h.storage.Within h.areaCount a

/-- Whatever is new comes out of the memory. -/
theorem Covers.of_frame {l l' : List Addr} (hc : h.Covers l) (hw : h.Works h') (hu : h'.Uses l')
    (hframe : ∀ a, a ≠ 0 → a ∉ l → ¬h.Avail a → a ∉ l' ∧ ¬h'.Avail a) : h'.Covers l' := by
  intro a ha
  have hfacts : a ≠ 0 ∧ ¬h'.storage.Future h'.areaCount a ∧ (a ∈ l' ∨ h'.Avail a) := by
    rcases ha with ha | ha | ha
    . exact ⟨hu.ne_zero a ha, fun hf => hu.not_avail a ha (Or.inr (Or.inr hf)), Or.inl ha⟩
    . exact ⟨(hu.sound.queued a ha).1, (hu.sound.queued a ha).2.2, Or.inr (Or.inl ha)⟩
    . exact ⟨(hu.sound.uncarved a ha).1, (hu.sound.uncarved a ha).2, Or.inr (Or.inr (Or.inl ha))⟩
  obtain ⟨hne, hfuture, hnew⟩ := hfacts
  rw [hw.storage] at hfuture ⊢
  by_cases hl : a ∈ l
  . exact (hc a (Or.inl hl)).mono hw.areaCount
  . by_cases hav : h.Avail a
    . rcases hav with hq | hun | ⟨i, hi, hin⟩
      . exact (hc a (Or.inr (Or.inl hq))).mono hw.areaCount
      . exact (hc a (Or.inr (Or.inr hun))).mono hw.areaCount
      . refine ⟨i, ?_, hin⟩
        by_contra hlt
        exact hfuture ⟨i, Nat.le_of_not_lt hlt, hin⟩
    . have hnone := hframe a hne hl hav
      rcases hnew with hnew | hnew
      . exact absurd hnew hnone.1
      . exact absurd hnew hnone.2

section Areas

variable {st : Storage} {l : List Addr}

/-- The storage hands out other areas after those that are in use. -/
theorem FreeAt.of_storage (hagree : ∀ i < h.areaCount, st.area i = h.storage.area i)
    (hin : h.storage.Within h.areaCount a) (hfree : ({ h with storage := st } : Heap).FreeAt v a) :
    h.FreeAt v a := by
  rcases hfree with hr | hun | hfuture
  . exact Or.inl hr
  . exact Or.inr (Or.inl hun)
  . exact absurd hfuture (hin.congr hagree).not_future

theorem Covers.of_storage (hc : h.Covers l)
    (hagree : ∀ i < h.areaCount, st.area i = h.storage.area i) :
    ({ h with storage := st } : Heap).Covers l :=
  fun b hb => (hc b hb).congr hagree

theorem Uses.of_storage (hu : h.Uses l) (hc : h.Covers l)
    (hagree : ∀ i < h.areaCount, st.area i = h.storage.area i) :
    ({ h with storage := st } : Heap).Uses l := by
  have hc' := hc.of_storage hagree
  refine ⟨⟨hu.sound.nodup, hu.sound.disjoint, ?_, ?_, hu.sound.leftOver⟩, hu.recycle, hu.nodup,
    hu.ne_zero, ?_, hu.slot⟩
  . intro b hb
    obtain ⟨hne, hun, -⟩ := hu.sound.queued b hb
    exact ⟨hne, hun, (hc' b (Or.inr (Or.inl hb))).not_future⟩
  . intro b hb
    exact ⟨(hu.sound.uncarved b hb).1, (hc' b (Or.inr (Or.inr hb))).not_future⟩
  . intro b hb hav
    rcases hav with hq | hun | hfuture
    . exact hu.not_avail b hb (Or.inl hq)
    . exact hu.not_avail b hb (Or.inr (Or.inl hun))
    . exact (hc' b (Or.inl hb)).not_future hfuture

end Areas

/-- A page that is neither in use nor to be had is not handed out. -/
theorem allocSlot_frame {l : List Addr} {slot : Nat} {b : Addr} (hu : h.Uses l)
    (hslot : slot < PAGE_SIZES_COUNT) (heq : h.allocSlot slot = .ok (b, h')) (hne : a ≠ 0)
    (hs : (h.page a).slotId < PAGE_SIZES_COUNT) (hmem : a ∉ l) (hnot : ¬h.Avail a) :
    a ∉ b :: l ∧ ¬h'.Avail a := by
  have hu' : h.Uses (a :: l) := by
    refine ⟨hu.sound, hu.recycle, List.nodup_cons.mpr ⟨hmem, hu.nodup⟩, ?_, ?_, ?_⟩
    . rw [List.forall_mem_cons]
      exact ⟨hne, hu.ne_zero⟩
    . rw [List.forall_mem_cons]
      exact ⟨hnot, hu.not_avail⟩
    . rw [List.forall_mem_cons]
      exact ⟨hs, hu.slot⟩
  obtain ⟨b1, h1, heq1, ha, -, -⟩ := allocSlot_allocates hu' hslot
  rw [heq, Except.ok.injEq, Prod.mk.injEq] at heq1
  obtain ⟨rfl, rfl⟩ := heq1
  have hnodup := ha.uses.nodup
  rw [List.nodup_cons, List.mem_cons, not_or] at hnodup
  refine ⟨fun hb => ?_, ha.uses.not_avail a (by simp)⟩
  rcases List.mem_cons.mp hb with rfl | hb
  . exact hnodup.1.1 rfl
  . exact hmem hb

end Heap

namespace SnapshotDB

/-- Somebody reads the transaction on the page `q`, and nobody writes to it. -/
def Pinned (s : SnapshotDB) (q : Nat) : Prop :=
  q = s.txns.readTxn ∨
    ∃ c cur, s.txns.cursor? c = some cur ∧ cur.txn = q ∧ s.txns.activeTxn ≠ some q

/-- The transactions whose memory is in use: the committed one and the active one. -/
def Kept (s : SnapshotDB) (q : Nat) : Prop := q = s.txns.readTxn ∨ s.txns.activeTxn = some q

/-- The page of the transaction after the one on the page `q`, once it is allocated. -/
def spare (s : SnapshotDB) (q : Nat) : Option Nat :=
  if s.txns.activeTxn = none ∨ s.txns.activeTxn = some q then s.txns.nextTxnPage
  else s.txns.activeTxn

/-- Where the pages of transactions are that the memory of the one on the page `q` has in use. -/
def held (s : SnapshotDB) (q : Nat) : List Addr :=
  (s.txns.chain q ++ (s.spare q).toList).map s.offset

/-- The trie `t` with the map `m` is that of the transaction on the page `q`, which is read. -/
structure Version (s : SnapshotDB) (q : Nat) (t : Trie) (m : List (Key × Content)) : Prop where
  read : t.Read s.rd (s.root q)
  map : Related (fun v w => ∃ n, v = storedValue n w) t.entries m
  stamp : ∀ a ∈ t.addrs, (s.page a).txnId ≤ (s.txns.page q).txnId
  within : ∀ a ∈ t.addrs, s.storage.Within (s.heap s.txns.readTxn).areaCount a
  guard : ∀ q', s.Kept q' → ∀ a ∈ t.addrs, ¬(s.heap q').FreeAt (s.txns.page q).txnId a

/-- The memory of the transaction on the page `q` has its trie `t` with the map `m`. -/
structure Memory (s : SnapshotDB) (q : Nat) (t : Trie) (m : List (Key × Content)) : Prop where
  stores : (s.heap q).Stores t (s.held q)
  root : s.root q = t.root
  map : Related (fun v w => ∃ n, v = storedValue n w) t.entries m
  covers : (s.heap q).Covers (t.addrs ++ s.held q)

/-- The tries `T` and the maps `M` of the transactions, after less than `n` steps. -/
structure Good (s : SnapshotDB) (T : Nat → Trie) (M : Nat → List (Key × Content)) (n : Nat) :
    Prop where
  pages : s.txns.Pages
  chained : s.txns.Chained n
  copy : ∀ q, s.txns.nextTxnPage = some q →
    (s.txns.page q).root = (s.txns.page s.txns.preparedTxn).root
  oldest : ∀ q, s.Pinned q → s.startTxnId ≤ (s.txns.page q).txnId
  stamp : ∀ a, (s.page a).txnId ≤ (s.txns.page s.txns.readTxn).txnId + 1
  slot : ∀ a, (s.page a).slotId < PAGE_SIZES_COUNT
  areas : ∀ q, s.Kept q → (s.heap s.txns.readTxn).areaCount ≤ (s.heap q).areaCount
  version : ∀ q, s.Pinned q → s.Version q (T q) (M q)
  memory : ∀ q, s.Kept q → s.Memory q (T q) (M q)

variable {s : SnapshotDB} {T : Nat → Trie} {M : Nat → List (Key × Content)} {n : Nat}

theorem pinned_read (s : SnapshotDB) : s.Pinned s.txns.readTxn := Or.inl rfl

theorem kept_read (s : SnapshotDB) : s.Kept s.txns.readTxn := Or.inl rfl

/-- The cursors and the counts have changed. -/
theorem Good.recounts {txns : TransactionDB TxnContent} (hg : s.Good T M n)
    (hr : TransactionDB.Recounts s.txns txns) (hp : txns.Pages) {n' : Nat}
    (hchained : txns.Chained n')
    (hpinned : ∀ q, Pinned { s with txns } q → s.Pinned q) : Good { s with txns } T M n' := by
  have hheap : ∀ q, heap { s with txns } q = s.heap q := by
    intro q
    simp only [heap, hr.root, hr.txnId]
  have hroot : ∀ q, root { s with txns } q = s.root q := fun q => by rw [root, root, hr.root]
  have hkept : ∀ q, Kept { s with txns } q → s.Kept q := by
    intro q hq
    simp only [Kept, hr.readTxn, hr.activeTxn] at hq
    exact hq
  have hheld : ∀ q, held { s with txns } q = s.held q := by
    intro q
    simp only [held, spare, hr.chain, hr.activeTxn, hr.nextTxnPage]
  refine ⟨hp, hchained, ?_, ?_, ?_, hg.slot, ?_, ?_, ?_⟩
  . intro q hq
    rw [hr.nextTxnPage] at hq
    rw [hr.root, hr.preparedTxn, hr.root]
    exact hg.copy q hq
  . intro q hq
    rw [hr.txnId]
    exact hg.oldest q (hpinned q hq)
  . intro a
    rw [hr.readTxn, hr.txnId]
    exact hg.stamp a
  . intro q hq
    rw [hheap, hheap, hr.readTxn]
    exact hg.areas q (hkept q hq)
  . intro q hq
    have hv := hg.version q (hpinned q hq)
    refine ⟨?_, hv.map, ?_, ?_, ?_⟩
    . rw [hroot]
      exact hv.read
    . rw [hr.txnId]
      exact hv.stamp
    . rw [hheap, hr.readTxn]
      exact hv.within
    . intro q' hq'
      rw [hheap, hr.txnId]
      exact hv.guard q' (hkept q' hq')
  . intro q hq
    have hm := hg.memory q (hkept q hq)
    refine ⟨?_, ?_, hm.map, ?_⟩
    . rw [hheap, hheld]
      exact hm.stores
    . rw [hroot]
      exact hm.root
    . rw [hheap, hheld]
      exact hm.covers

end SnapshotDB
end Leaves
