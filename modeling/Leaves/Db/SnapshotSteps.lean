import Leaves.Db.Lemmas.Withdrawn
import Leaves.Db.SnapshotInvariant

/-!
What every call leaves of the versions: the pages of the transactions that are read stay as they
are, and stay out of reach.
-/

namespace Leaves

open OrdMap (Related)

namespace SnapshotDB

variable {s : SnapshotDB} {T : Nat → Trie} {M : Nat → List (Key × Content)} {n : Nat}
  {c p : Nat} {cur : TxnCursor}

theorem Good.mono (hg : s.Good T M n) {n' : Nat} (hle : n ≤ n') : s.Good T M n' := by
  have hr := TransactionDB.Recounts.refl s.txns
  have hchained := hg.chained.recounts hr hle (Nat.le_trans hg.chained.few hle)
    hg.chained.cursor
  exact hg.recounts hr hg.pages hchained fun _ hq => hq

/-- The committed transaction and the active one. -/
theorem Good.open (hg : s.Good T M n) (hn : n + 2 < Serial.HALF_RANGE)
    (hopen : s.txns.Open c p cur) :
    (s.txns.page p).txnId = (s.txns.page s.txns.readTxn).txnId + 1 := by
  have ho : s.txns.owned c = some (p, cur) := hopen.owned_eq
  exact (hg.chained.asc_active hg.pages hn hopen (hg.pages.open_of_owned ho).2).2

theorem Good.id_le (hg : s.Good T M n) {q : Nat} (hq : s.Pinned q) :
    (s.txns.page q).txnId ≤ (s.txns.page s.txns.readTxn).txnId := by
  rcases hq with rfl | ⟨c', x, hx, rfl, hactive⟩
  . exact Nat.le_refl _
  . by_cases hread : x.txn = s.txns.readTxn
    . rw [hread]
    . exact Nat.le_of_lt (hg.chained.id_lt (hg.chained.mem_chain hx hactive) hread)

theorem Pinned.ne (hopen : s.txns.Open c p cur) {q : Nat} (hq : s.Pinned q) : q ≠ p := by
  rintro rfl
  rcases hq with hq | ⟨c', x, hx, -, hactive⟩
  . exact hopen.ne hq
  . exact hactive hopen.activeTxn

section Store

variable {h' : Heap} {t' : Trie} {m' : List (Key × Content)}

theorem page_store (s : SnapshotDB) (p : Nat) (h' : Heap) (root : Addr) (q : Nat) :
    ((s.store p h' root).txns.page q).txnId = (s.txns.page q).txnId ∧
      ((s.store p h' root).txns.page q).older = (s.txns.page q).older ∧
      ((s.store p h' root).txns.page q).refs = (s.txns.page q).refs ∧
      ((s.store p h' root).txns.page q).root =
        if q = p then ⟨root, h'.mem, h'.areaCount⟩ else (s.txns.page q).root := by
  simp only [store, TransactionDB.setPage, Function.update_apply]
  split
  next hq => simp [hq]
  next => simp

theorem heap_store (hw : (s.heap p).Works h') (root : Addr) : (s.store p h' root).heap p = h' := by
  obtain ⟨hid, -, -, hroot⟩ := page_store s p h' root p
  rw [heap, hid, hroot, if_pos rfl]
  have htxn : (s.txns.page p).txnId = h'.txnId := hw.txnId.symm
  have hstart : (s.store p h' root).startTxnId = h'.startTxnId := hw.startTxnId.symm
  have hstorage : (s.store p h' root).storage = h'.storage := hw.storage.symm
  rw [htxn, hstart, hstorage]
  rfl

theorem heap_store_of_ne {q : Nat} (hq : q ≠ p) (root : Addr) :
    (s.store p h' root).heap q = { s.heap q with page := h'.page } := by
  obtain ⟨hid, -, -, hroot⟩ := page_store s p h' root q
  rw [heap, hid, hroot, if_neg hq]
  rfl

theorem pages_store (hp : s.txns.Pages) (p : Nat) (h' : Heap) (root : Addr) :
    (s.store p h' root).txns.Pages := by
  have hcore : (s.store p h' root).txns.core = s.txns.core := rfl
  apply TransactionDB.Pages.of_core hcore hp
  intro q
  exact ⟨(page_store s p h' root q).2.2.1, (page_store s p h' root q).1⟩

theorem chained_store (hc : s.txns.Chained n) (p : Nat) (h' : Heap) (root : Addr) :
    (s.store p h' root).txns.Chained n := by
  have hid : (fun q => ((s.store p h' root).txns.page q).txnId) =
      fun q => (s.txns.page q).txnId := funext fun q => (page_store s p h' root q).1
  have hchain : ∀ q, (s.store p h' root).txns.chain q = s.txns.chain q := by
    intro q
    rw [TransactionDB.chain, TransactionDB.chain, (page_store s p h' root q).2.1]
  refine ⟨hc.few, ?_, ?_, ?_, ?_, ?_, ?_, ?_⟩
  . rw [(page_store s p h' root _).1]
    exact hc.id_le
  . rw [hchain]
    exact hc.lt
  . rw [hid, hchain]
    exact hc.asc
  . rw [hchain]
    exact hc.cursor
  . rw [hchain]
    exact hc.read
  . intro q hq
    rw [hchain, (page_store s p h' root q).2.1]
    exact hc.older q hq
  . intro q hq
    rw [hchain]
    exact hc.spare q hq

/-- The pages of a version after work of the active transaction. -/
theorem Good.page_of_version (hg : s.Good T M n) (hn : n + 2 < Serial.HALF_RANGE)
    (hopen : s.txns.Open c p cur) (hk : (s.heap p).Keeps h') {q : Nat} (hq : s.Pinned q) {a : Addr}
    (ha : a ∈ (T q).addrs) : h'.page a = s.page a := by
  have hv := hg.version q hq
  have hid : (s.txns.page q).txnId < (s.heap p).txnId := by
    change _ < (s.txns.page p).txnId
    rw [hg.open hn hopen]
    exact Nat.lt_succ_of_le (hg.id_le hq)
  exact hk.page_of_version (hg.oldest q hq) hid (hv.guard p (Or.inr hopen.activeTxn) a ha)
    (hv.stamp a ha)

/-- The active transaction works on its memory. -/
theorem Good.store (hg : s.Good T M n) (hn : n + 2 < Serial.HALF_RANGE)
    (hopen : s.txns.Open c p cur) (hread : s.txns.preparedTxn = s.txns.readTxn)
    (hw : (s.heap p).Works h') (hk : (s.heap p).Keeps h') (hs' : h'.Stores t' (s.held p))
    (hmap : Related (fun v w => ∃ n, v = storedValue n w) t'.entries m')
    (hcov : h'.Covers (t'.addrs ++ s.held p)) :
    (s.store p h' t'.root).Good (Function.update T p t') (Function.update M p m') n := by
  have hnone : s.txns.nextTxnPage = none := by
    rcases hopen.next with ⟨-, hnone⟩ | ⟨hprepared, -⟩
    . exact hnone
    . exact absurd (hprepared.symm.trans hread) hopen.ne
  have hpage : ∀ q, s.Pinned q → ∀ a ∈ (T q).addrs, h'.page a = s.page a :=
    fun q hq a ha => hg.page_of_version hn hopen hk hq ha
  have hid := fun q => (page_store s p h' t'.root q).1
  have hne : s.txns.readTxn ≠ p := Ne.symm hopen.ne
  have hheld : ∀ q, (s.store p h' t'.root).held q = s.held q := by
    intro q
    simp only [held, TransactionDB.chain, (page_store s p h' t'.root q).2.1]
    rfl
  have hroot : ∀ q, q ≠ p → (s.store p h' t'.root).root q = s.root q := by
    intro q hq
    rw [SnapshotDB.root, (page_store s p h' t'.root q).2.2.2, if_neg hq]
    rfl
  have hreads : ∀ q, s.Pinned q → (T q).Read h'.rd (s.root q) := by
    intro q hq
    refine (hg.version q hq).read.congr fun a ha => ?_
    rw [Heap.rd, hpage q hq a ha]
    rfl
  have hslot : ∀ a, (h'.page a).slotId < PAGE_SIZES_COUNT := by
    intro a
    rcases hw.slot a with heq | hlt
    . rw [heq]
      exact hg.slot a
    . exact hlt
  refine ⟨pages_store hg.pages p h' t'.root, chained_store hg.chained p h' t'.root, ?_, ?_, ?_,
    hslot, ?_, ?_, ?_⟩
  . intro q hq
    have hq' : s.txns.nextTxnPage = some q := hq
    rw [hnone] at hq'
    cases hq'
  . intro q hq
    rw [hid]
    exact hg.oldest q hq
  . intro a
    rw [hid]
    change (h'.page a).txnId ≤ (s.txns.page s.txns.readTxn).txnId + 1
    rcases hw.stamp a with heq | heq
    . rw [heq]
      exact hg.stamp a
    . rw [heq, ← hg.open hn hopen]
      exact Nat.le_refl _
  . intro q hq
    have hq' : s.Kept q := hq
    change ((s.store p h' t'.root).heap s.txns.readTxn).areaCount ≤ _
    rw [heap_store_of_ne hne]
    by_cases hqp : q = p
    . rw [hqp, heap_store hw]
      exact Nat.le_trans (hg.areas p (Or.inr hopen.activeTxn)) hw.areaCount
    . rw [heap_store_of_ne hqp]
      exact hg.areas q hq'
  . intro q hq
    have hq' : s.Pinned q := hq
    have hqp := hq'.ne hopen
    have hv := hg.version q hq'
    rw [Function.update_of_ne hqp, Function.update_of_ne hqp]
    refine ⟨?_, hv.map, ?_, ?_, ?_⟩
    . rw [hroot q hqp]
      exact hreads q hq'
    . intro a ha
      rw [hid]
      change (h'.page a).txnId ≤ _
      rw [hpage q hq' a ha]
      exact hv.stamp a ha
    . intro a ha
      change s.storage.Within ((s.store p h' t'.root).heap s.txns.readTxn).areaCount a
      rw [heap_store_of_ne hne]
      exact hv.within a ha
    . intro q' hq1 a ha
      rw [hid]
      by_cases hqq : q' = p
      . rw [hqq, heap_store hw]
        refine fun hfree => hv.guard p (Or.inr hopen.activeTxn) a ha ?_
        refine hw.freeAt hk (hg.oldest q hq') ?_ hfree
        change _ ≤ (s.txns.page p).txnId
        rw [hg.open hn hopen]
        exact Nat.le_succ_of_le (hg.id_le hq')
      . rw [heap_store_of_ne hqq]
        exact hv.guard q' hq1 a ha
  . intro q hq
    have hq' : s.Kept q := hq
    by_cases hqp : q = p
    . rw [hqp, Function.update_self, Function.update_self]
      refine ⟨?_, ?_, hmap, ?_⟩
      . rw [heap_store hw, hheld]
        exact hs'
      . rw [SnapshotDB.root, (page_store s p h' t'.root p).2.2.2, if_pos rfl]
      . rw [heap_store hw, hheld]
        exact hcov
    . have hm := hg.memory q hq'
      have hqread : q = s.txns.readTxn := by
        rcases hq' with hq' | hq'
        . exact hq'
        . exact absurd (Option.some.inj (hq'.symm.trans hopen.activeTxn)) hqp
      rw [Function.update_of_ne hqp, Function.update_of_ne hqp]
      refine ⟨⟨?_, ?_⟩, ?_, hm.map, ?_⟩
      . rw [heap_store_of_ne hqp, hheld]
        have hu := hm.stores.uses
        exact ⟨hu.sound, hu.recycle, hu.nodup, hu.ne_zero, hu.not_avail, fun a _ => hslot a⟩
      . have hr := hreads q (hqread ▸ s.pinned_read)
        rw [heap_store_of_ne hqp]
        exact hr.valid
      . rw [hroot q hqp]
        exact hm.root
      . rw [heap_store_of_ne hqp, hheld]
        exact hm.covers

end Store

section Edit

variable {s' : SnapshotDB} {e : Edit}

theorem Good.edit (hg : s.Good T M n) (hn : n + 2 < Serial.HALF_RANGE)
    (hopen : s.txns.Open c p cur) (hedit : ∀ k, e ≠ .nextTransaction k)
    (hok : s.editOk c e = true) (hstep : s.edit c e = some s') :
    ∃ t', s'.Good (Function.update T p t') (Function.update M p (e.apply (M p))) n ∧
      s'.txns.core = s.txns.core := by
  have hm := hg.memory p (Or.inr hopen.activeTxn)
  rw [editOk, hopen.owned_eq, Option.all_some, Bool.and_eq_true, Bool.and_eq_true,
    beq_iff_eq] at hok
  obtain ⟨⟨hfits, hkeeps⟩, hread⟩ := hok
  rw [SnapshotDB.edit, hopen.owned_eq, Option.bind_some] at hstep
  dsimp only at hfits hkeeps hstep
  rw [hm.root] at hfits hkeeps hstep
  rcases Edit.exec_edited hm.stores hm.map hedit hfits with
    ⟨h', t', heq, hed, hmap⟩ | ⟨fault, heq, hne, happly⟩
  . rw [heq] at hstep
    have hs' : s.store p h' t'.root = s' := Option.some.inj hstep
    have hw := Edit.exec_works hedit heq
    have hcov : h'.Covers (t'.addrs ++ s.held p) := by
      refine hm.covers.of_frame hw hed.stores.uses fun a ha hmem hav => ?_
      obtain ⟨h1, h2⟩ := Edit.exec_frame hm.stores hm.map hedit hfits heq hed.stores ha
        (hg.slot a) hmem hav
      refine ⟨fun hin => ?_, h2⟩
      rcases List.mem_append.mp hin with hin | hin
      . exact h1 hin
      . exact hmem (List.mem_append_right _ hin)
    refine ⟨t', ?_, ?_⟩
    . rw [← hs']
      exact hg.store hn hopen hread hw (hed.keeps hkeeps) hed.stores hmap hcov
    . rw [← hs']
      rfl
  . have hs' : s = s' := by
      rw [heq] at hstep
      cases fault with
      | pageOverflow => exact absurd rfl hne
      | noValidPosition => exact Option.some.inj hstep
      | keyTooBig => exact Option.some.inj hstep
    refine ⟨T p, ?_, by rw [hs']⟩
    rw [happly, Function.update_eq_self, Function.update_eq_self, ← hs']
    exact hg

end Edit

section Prepare

theorem txn_slot_lt : TXN_SLOT < PAGE_SIZES_COUNT := by decide

theorem Good.lt_pageCount (hg : s.Good T M n) {q : Nat} (hq : s.Pinned q ∨ s.Kept q) :
    q < s.txns.pageCount := by
  rcases hq with (rfl | ⟨c', x, hx, rfl, -⟩) | (rfl | hq)
  . exact hg.pages.read
  . exact (hg.pages.cursor c' x hx).lt
  . exact hg.pages.read
  . rcases hg.pages.state with ⟨m, hclosed⟩ | ⟨c', p', own, hopen, -⟩
    . rw [hclosed.activeTxn] at hq
      cases hq
    . rw [← Option.some.inj (hopen.activeTxn.symm.trans hq), ← hopen.txn]
      exact (hg.pages.cursor c' own hopen.cursor).lt

/-- The transaction is prepared, the page at `a` is for the next one. -/
theorem Good.prepared {a : Addr} (hg : s.Good T M n) (hopen : s.txns.Open c p cur)
    (hread : s.txns.preparedTxn = s.txns.readTxn)
    (hu : (s.heap p).Uses (a :: ((T p).addrs ++ s.held p)))
    (hcov : (s.heap p).Covers (a :: ((T p).addrs ++ s.held p))) :
    Good { s with
      offset := Function.update s.offset s.txns.pageCount a
      txns := s.txns.prepareCommit c } T M n := by
  have ho : s.txns.owned c = some (p, cur) := hopen.owned_eq
  have hid := (hg.pages.open_of_owned ho).2
  obtain ⟨s₁, hcore₁, hpage₁, heq₁⟩ := TransactionDB.prepareCommit_eq hopen
  have hpages : (s.txns.prepareCommit c).Pages := by
    have hp₁ : s₁.Pages := hg.pages.of_log hcore₁ hpage₁
    have hopen₁ := hopen.of_core hcore₁
    rw [heq₁]
    exact (hp₁.prepareTxn hopen₁ (hp₁.open_of_owned hopen₁.owned_eq).2).1
  have hs := TransactionDB.prepareCommit_prepared hopen hread
  have hplt : p < s.txns.pageCount := hg.lt_pageCount (Or.inr (Or.inr hopen.activeTxn))
  have hpage : ∀ q, q < s.txns.pageCount → (s.txns.prepareCommit c).page q = s.txns.page q := by
    intro q hq
    rw [hs.page, if_neg (Nat.ne_of_lt hq)]
  let s' : SnapshotDB := { s with
    offset := Function.update s.offset s.txns.pageCount a, txns := s.txns.prepareCommit c }
  have hcursor : ∀ c', s'.txns.cursor? c' = s.txns.cursor? c' := by
    intro c'
    rw [TransactionDB.cursor?, TransactionDB.cursor?, hs.cursors]
  have hpinned : ∀ q, s'.Pinned q → s.Pinned q := by
    intro q hq
    rcases hq with hq | ⟨c', x, hx, hq, hactive⟩
    . exact Or.inl (hq.trans hs.readTxn)
    . rw [hcursor] at hx
      exact Or.inr ⟨c', x, hx, hq, fun h => hactive (hs.activeTxn.trans h)⟩
  have hkept : ∀ q, s'.Kept q → s.Kept q := by
    intro q hq
    rcases hq with hq | hq
    . exact Or.inl (hq.trans hs.readTxn)
    . exact Or.inr (hs.activeTxn.symm.trans hq)
  have hheap : ∀ q, q < s.txns.pageCount → s'.heap q = s.heap q := by
    intro q hq
    simp only [heap, s', hpage q hq]
  have hroot : ∀ q, q < s.txns.pageCount → s'.root q = s.root q := by
    intro q hq
    simp only [root, s', hpage q hq]
  have hreadlt := hg.pages.read
  have hoffset : ∀ l : List Nat, (∀ q ∈ l, q < s.txns.pageCount) →
      l.map s'.offset = l.map s.offset := by
    intro l hl
    refine List.map_congr_left fun q hq => ?_
    exact Function.update_of_ne (Nat.ne_of_lt (hl q hq)) _ _
  have hactive : s'.txns.activeTxn = some p := hs.activeTxn.trans hopen.activeTxn
  have hnone : s.txns.nextTxnPage = none := by
    rcases hopen.next with ⟨-, hnone⟩ | ⟨hprepared, -⟩
    . exact hnone
    . exact absurd (hprepared.symm.trans hread) hopen.ne
  have hne : (some p : Option Nat) ≠ some s.txns.readTxn :=
    fun heq => hopen.ne (Option.some.inj heq)
  have hheld_read : s'.held s.txns.readTxn = s.held s.txns.readTxn := by
    have hchain : s'.txns.chain s.txns.readTxn = s.txns.chain s.txns.readTxn := by
      rw [TransactionDB.chain, TransactionDB.chain, hpage _ hreadlt]
    rw [held, held, spare, spare, hactive, hopen.activeTxn, hchain]
    simp only [reduceCtorEq, hne, or_self, ↓reduceIte, Option.toList_some]
    apply hoffset
    intro q hq
    rcases List.mem_append.mp hq with hq | hq
    . exact hg.chained.lt q hq
    . rw [List.mem_singleton.mp hq]
      exact hplt
  have hheld_p : s'.held p = s.held p ++ [a] := by
    have hchain : s'.txns.chain p = s.txns.chain p := by
      rw [TransactionDB.chain, TransactionDB.chain, hpage _ hplt]
    rw [held, held, spare, spare, hactive, hopen.activeTxn, hchain, if_pos (Or.inr rfl),
      if_pos (Or.inr rfl), hnone, hs.nextTxnPage, Option.toList_some, Option.toList_none,
      List.append_nil, List.map_append, hoffset]
    . simp [s']
    . intro q hq
      rw [TransactionDB.chain, List.mem_append, List.mem_singleton] at hq
      rcases hq with hq | rfl
      . exact hg.chained.lt q ((hg.chained.older p hopen.activeTxn).subset hq)
      . exact hplt
  refine ⟨hpages, hg.chained.prepared hplt hopen.activeTxn hs, ?_, ?_, ?_, hg.slot, ?_, ?_, ?_⟩
  . intro q hq
    rw [hs.nextTxnPage, Option.some.injEq] at hq
    rw [hs.preparedTxn, hpage p hplt, hs.page, if_pos hq.symm]
  . intro q hq
    change s.startTxnId ≤ ((s.txns.prepareCommit c).page q).txnId
    rw [hpage q (hg.lt_pageCount (Or.inl (hpinned q hq)))]
    exact hg.oldest q (hpinned q hq)
  . intro b
    change (s.page b).txnId ≤
      ((s.txns.prepareCommit c).page (s.txns.prepareCommit c).readTxn).txnId + 1
    rw [hs.readTxn, hpage _ hreadlt]
    exact hg.stamp b
  . intro q hq
    have hq' := hkept q hq
    rw [hheap q (hg.lt_pageCount (Or.inr hq'))]
    change (s'.heap (s.txns.prepareCommit c).readTxn).areaCount ≤ _
    rw [hs.readTxn, hheap _ hreadlt]
    exact hg.areas q hq'
  . intro q hq
    have hq' := hpinned q hq
    have hlt := hg.lt_pageCount (Or.inl hq')
    have hv := hg.version q hq'
    refine ⟨?_, hv.map, ?_, ?_, ?_⟩
    . rw [hroot q hlt]
      exact hv.read
    . intro b hb
      change (s.page b).txnId ≤ ((s.txns.prepareCommit c).page q).txnId
      rw [hpage q hlt]
      exact hv.stamp b hb
    . change ∀ b ∈ (T q).addrs,
        s.storage.Within (s'.heap (s.txns.prepareCommit c).readTxn).areaCount b
      rw [hs.readTxn, hheap _ hreadlt]
      exact hv.within
    . intro q' hq1 b hb
      have hq2 := hkept q' hq1
      rw [hheap q' (hg.lt_pageCount (Or.inr hq2))]
      change ¬(s.heap q').FreeAt ((s.txns.prepareCommit c).page q).txnId b
      rw [hpage q hlt]
      exact hv.guard q' hq2 b hb
  . intro q hq
    have hq' := hkept q hq
    have hlt := hg.lt_pageCount (Or.inr hq')
    have hm := hg.memory q hq'
    have hcases : q = s.txns.readTxn ∨ q = p := by
      rcases hq' with hq' | hq'
      . exact Or.inl hq'
      . exact Or.inr (Option.some.inj (hq'.symm.trans hopen.activeTxn))
    rcases hcases with rfl | rfl
    . refine ⟨?_, ?_, hm.map, ?_⟩
      . rw [hheap _ hlt, hheld_read]
        exact hm.stores
      . rw [hroot _ hlt]
        exact hm.root
      . rw [hheap _ hlt, hheld_read]
        exact hm.covers
    . refine ⟨⟨?_, ?_⟩, ?_, hm.map, ?_⟩
      . rw [hheap _ hlt, hheld_p, ← List.append_assoc]
        exact hu.perm (List.perm_append_singleton a _).symm
      . rw [hheap _ hlt]
        exact hm.stores.valid
      . rw [hroot _ hlt]
        exact hm.root
      . rw [hheap _ hlt, hheld_p, ← List.append_assoc]
        intro b hb
        refine hcov b (hb.imp_left fun hb => ?_)
        exact (List.perm_append_singleton a _).mem_iff.mp hb

/-- The page of the next transaction is allocated in the memory of the active one. -/
theorem Good.clone (hg : s.Good T M n) (hn : n + 2 < Serial.HALF_RANGE)
    (hopen : s.txns.Open c p cur) (hread : s.txns.preparedTxn = s.txns.readTxn) :
    ∃ (a : Addr) (s₁ : SnapshotDB),
      s.clone p = { s₁ with offset := Function.update s₁.offset s₁.txns.pageCount a } ∧
      s₁.txns.core = s.txns.core ∧ s₁.Good T M n ∧
      (s₁.heap p).Uses (a :: ((T p).addrs ++ s₁.held p)) ∧
      (s₁.heap p).Covers (a :: ((T p).addrs ++ s₁.held p)) := by
  have hm := hg.memory p (Or.inr hopen.activeTxn)
  obtain ⟨a, h', heq, ha, -, -⟩ := Heap.allocSlot_allocates hm.stores.uses txn_slot_lt
  have hw := Heap.allocSlot_works heq
  have hcov : h'.Covers (a :: ((T p).addrs ++ s.held p)) :=
    hm.covers.of_frame hw ha.uses fun b hb hmem hav =>
      Heap.allocSlot_frame hm.stores.uses txn_slot_lt heq hb (hg.slot b) hmem hav
  have hu : h'.Uses ((T p).addrs ++ s.held p) := by
    refine ⟨ha.uses.sound, ha.uses.recycle, (List.nodup_cons.mp ha.uses.nodup).2, ?_, ?_, ?_⟩
    . exact fun b hb => ha.uses.ne_zero b (List.mem_cons_of_mem _ hb)
    . exact fun b hb => ha.uses.not_avail b (List.mem_cons_of_mem _ hb)
    . exact fun b hb => ha.uses.slot b (List.mem_cons_of_mem _ hb)
  have hstores : h'.Stores (T p) (s.held p) := by
    refine ⟨hu, (hm.stores.read.congr fun b hb => ?_).valid⟩
    have hne : b ≠ a := by
      rintro rfl
      exact (List.nodup_cons.mp ha.uses.nodup).1 (List.mem_append_left _ hb)
    rw [Heap.rd, ha.page b hne]
    rfl
  have hgood := hg.store hn hopen hread hw ha.keeps hstores hm.map fun b hb =>
    hcov b (hb.imp_left (List.mem_cons_of_mem _))
  rw [Function.update_eq_self, Function.update_eq_self] at hgood
  have hheld : (s.store p h' (T p).root).held p = s.held p := by
    simp only [held, TransactionDB.chain, (page_store s p h' (T p).root p).2.1]
    rfl
  refine ⟨a, s.store p h' (T p).root, ?_, rfl, hgood, ?_, ?_⟩
  . rw [SnapshotDB.clone, heq, hm.root]
    rfl
  . rw [heap_store hw, hheld]
    exact ha.uses
  . rw [heap_store hw, hheld]
    exact hcov

/-- What a call leaves of the transactions that the versions depend on. -/
structure Same (s s' : SnapshotDB) : Prop where
  readTxn : s'.txns.readTxn = s.txns.readTxn
  activeTxn : s'.txns.activeTxn = s.txns.activeTxn
  txnCursorId : s'.txns.txnCursorId = s.txns.txnCursorId
  cursors : s'.txns.cursors = s.txns.cursors

/-- Only the log is different. -/
theorem Good.of_core (hg : s.Good T M n) {txns : TransactionDB TxnContent}
    (hcore : txns.core = s.txns.core) (hpage : txns.page = s.txns.page) :
    Good { s with txns } T M n := by
  have hcursor := TransactionDB.cursor?_of_core hcore
  have hc := hcore
  simp only [TransactionDB.core, Prod.mk.injEq] at hc
  obtain ⟨hcount, hread, hprepared, hnext, -, hid, hactive, hcursors⟩ := hc
  have hr : TransactionDB.Recounts s.txns txns :=
    ⟨fun q => by rw [hpage], fun q => by rw [hpage], fun q => by rw [hpage], hcount, hread,
      hprepared, hnext, hactive, hid⟩
  refine hg.recounts hr (hg.pages.of_log hcore hpage)
    (hg.chained.recounts hr (Nat.le_refl n) ?_ ?_) ?_
  . rw [hcursors]
    exact hg.chained.few
  . intro c x hx
    rw [hcursor] at hx
    exact hg.chained.cursor c x hx
  . intro q hq
    simp only [Pinned, hread, hactive, hcursor] at hq
    exact hq

theorem Good.prepareCommit (hg : s.Good T M n) (hn : n + 2 < Serial.HALF_RANGE)
    (hopen : s.txns.Open c p cur) :
    (s.prepareCommit c).Good T M n ∧ Same s (s.prepareCommit c) ∧
      (s.prepareCommit c).txns.preparedTxn = p := by
  rcases hopen.next with ⟨hread, -⟩ | ⟨hprepared, -⟩
  . obtain ⟨a, s₁, heq, hcore, hg₁, hu, hcov⟩ := hg.clone hn hopen hread
    have hopen₁ := hopen.of_core hcore
    have hread₁ : s₁.txns.preparedTxn = s₁.txns.readTxn := by
      simp only [TransactionDB.core, Prod.mk.injEq] at hcore
      rw [hcore.2.1, hcore.2.2.1, hread]
    have hs := TransactionDB.prepareCommit_prepared hopen₁ hread₁
    rw [SnapshotDB.prepareCommit, hopen.owned_eq]
    dsimp only
    rw [if_pos hread, heq]
    refine ⟨hg₁.prepared hopen₁ hread₁ hu hcov, ?_, hs.preparedTxn⟩
    simp only [TransactionDB.core, Prod.mk.injEq] at hcore
    obtain ⟨-, hread', -, -, -, hid, hactive, hcursors⟩ := hcore
    exact ⟨hs.readTxn.trans hread', hs.activeTxn.trans hactive, hs.txnCursorId.trans hid,
      hs.cursors.trans hcursors⟩
  . obtain ⟨hcore, hpage⟩ := TransactionDB.prepareCommit_again hopen hprepared
    have hne : s.txns.preparedTxn ≠ s.txns.readTxn := by
      rw [hprepared]
      exact hopen.ne
    rw [SnapshotDB.prepareCommit, hopen.owned_eq]
    dsimp only
    rw [if_neg hne]
    refine ⟨hg.of_core hcore hpage, ?_, ?_⟩
    . simp only [TransactionDB.core, Prod.mk.injEq] at hcore
      obtain ⟨-, hread', -, -, -, hid, hactive, hcursors⟩ := hcore
      exact ⟨hread', hactive, hid, hcursors⟩
    . simp only [TransactionDB.core, Prod.mk.injEq] at hcore
      exact hcore.2.2.1.trans hprepared

end Prepare

section End

theorem Good.commit (hg : s.Good T M n) (hn : n + 2 < Serial.HALF_RANGE)
    (hopen : s.txns.Open c p cur) (hprepared : s.txns.preparedTxn = p) :
    Good { s with txns := s.txns.commit c } T M (n + 1) := by
  have hid := (hg.pages.open_of_owned hopen.owned_eq).2
  have hsucc := hg.open hn hopen
  have hs := TransactionDB.commit_committed hopen hprepared
  have hm := hg.memory p (Or.inr hopen.activeTxn)
  let s' : SnapshotDB := { s with txns := s.txns.commit c }
  have hpage : s'.txns.page = s.txns.page := hs.page
  have hheap : ∀ q, s'.heap q = s.heap q := by
    intro q
    rw [heap, heap, hpage]
  have hroot : ∀ q, s'.root q = s.root q := fun q => by rw [root, root, hpage]
  have hpinned : ∀ q, s'.Pinned q → q = p ∨ q ≠ p ∧ s.Pinned q := by
    intro q hq
    by_cases hqp : q = p
    . exact Or.inl hqp
    rcases hq with hq | ⟨c', x, hx, hq, -⟩
    . exact Or.inl (hq.trans hs.readTxn)
    . refine Or.inr ⟨hqp, Or.inr ⟨c', x, ?_, hq, ?_⟩⟩
      . rw [TransactionDB.cursor?, ← hs.cursors]
        exact hx
      . rw [hopen.activeTxn]
        exact fun heq => hqp (Option.some.inj heq).symm
  have hkept : ∀ q, s'.Kept q → q = p := by
    intro q hq
    rcases hq with hq | hq
    . exact hq.trans hs.readTxn
    . cases hs.activeTxn.symm.trans hq
  have hheld : s'.held p = s.held p := by
    have hchain : s'.txns.chain p = s.txns.chain p := by
      rw [TransactionDB.chain, TransactionDB.chain, hpage]
    rw [held, held, spare, spare, hchain, hopen.activeTxn,
      show s'.txns.activeTxn = none from hs.activeTxn]
    simp only [true_or, or_true, ↓reduceIte]
    rw [show s'.txns.nextTxnPage = s.txns.nextTxnPage from hs.nextTxnPage]
  have hread : s'.txns.readTxn = p := hs.readTxn
  refine ⟨hg.pages.commit hopen hprepared, hg.chained.committed hg.pages hn hopen hid hs, ?_, ?_,
    ?_, hg.slot, ?_, ?_, ?_⟩
  . intro q hq
    rw [hpage, show s'.txns.preparedTxn = s.txns.preparedTxn from
      hs.preparedTxn.trans hprepared.symm]
    exact hg.copy q (hs.nextTxnPage.symm.trans hq)
  . intro q hq
    rw [hpage]
    rcases hpinned q hq with rfl | ⟨-, hq⟩
    . rw [hsucc]
      exact Nat.le_succ_of_le (hg.oldest _ s.pinned_read)
    . exact hg.oldest q hq
  . intro a
    rw [hread, hpage, hsucc]
    exact Nat.le_succ_of_le (hg.stamp a)
  . intro q hq
    rw [hkept q hq, hread]
  . intro q hq
    rcases hpinned q hq with rfl | ⟨-, hq⟩
    . refine ⟨?_, hm.map, ?_, ?_, ?_⟩
      . rw [hroot, hm.root]
        exact hm.stores.read
      . intro a ha
        rw [hpage, hsucc]
        exact hg.stamp a
      . intro a ha
        rw [hread, hheap]
        exact hm.covers a (Or.inl (List.mem_append_left _ ha))
      . intro q' hq' a ha
        rw [hkept q' hq', hheap]
        exact fun hfree => hm.stores.uses.not_avail a (List.mem_append_left _ ha) hfree.avail
    . have hv := hg.version q hq
      refine ⟨?_, hv.map, ?_, ?_, ?_⟩
      . rw [hroot]
        exact hv.read
      . rw [hpage]
        exact hv.stamp
      . intro a ha
        rw [hread, hheap]
        exact (hv.within a ha).mono (hg.areas p (Or.inr hopen.activeTxn))
      . intro q' hq'
        rw [hkept q' hq', hheap, hpage]
        exact hv.guard p (Or.inr hopen.activeTxn)
  . intro q hq
    rw [hkept q hq]
    refine ⟨?_, ?_, hm.map, ?_⟩
    . rw [hheap, hheld]
      exact hm.stores
    . rw [hroot]
      exact hm.root
    . rw [hheap, hheld]
      exact hm.covers

theorem Good.rollback (hg : s.Good T M n) (hopen : s.txns.Open c p cur) {st : Storage}
    (hagree : ∀ i < (s.heap s.txns.readTxn).areaCount, st.area i = s.storage.area i) :
    Good { s with txns := s.txns.rollback c, storage := st } T M (n + 1) := by
  have hs := TransactionDB.rollback_rolledBack hopen
  have hne : s.txns.readTxn ≠ p := Ne.symm hopen.ne
  let s' : SnapshotDB := { s with txns := s.txns.rollback c, storage := st }
  have hheap : ∀ q, q ≠ p → s'.heap q = { s.heap q with storage := st } := by
    intro q hq
    simp only [heap, s', hs.root q hq, hs.txnId q hq]
  have hroot : ∀ q, q ≠ p → s'.root q = s.root q := fun q hq => congrArg _ (hs.root q hq)
  have hread : s'.txns.readTxn = s.txns.readTxn := hs.readTxn
  have hactive : s'.txns.activeTxn = none := hs.activeTxn
  have hpinned : ∀ q, s'.Pinned q → s.Pinned q := by
    rintro q (hq | ⟨c', x, hx, hq, -⟩)
    . exact Or.inl (hq.trans hread)
    . replace hx := (hs.cursor c').symm.trans hx
      split at hx
      next =>
        rw [← Option.some.inj hx] at hq
        exact Or.inl hq.symm
      next hcc =>
        refine Or.inr ⟨c', x, hx, hq, fun hqa => hcc ?_⟩
        have hown := (hg.pages.cursor c' x hx).active (hq ▸ hqa)
        exact (Option.some.inj (hopen.txnCursorId.symm.trans hown)).symm
  have hkept : ∀ q, s'.Kept q → q = s.txns.readTxn := by
    rintro q (hq | hq)
    . exact hq.trans hread
    . cases hactive.symm.trans hq
  have hheld : s'.held s.txns.readTxn = s.held s.txns.readTxn := by
    have hchain : s'.txns.chain s.txns.readTxn = s.txns.chain s.txns.readTxn := by
      rw [TransactionDB.chain, TransactionDB.chain, hs.older _ hne]
    have hsome : (some p : Option Nat) ≠ some s.txns.readTxn :=
      fun heq => hne (Option.some.inj heq).symm
    rw [held, held, spare, spare, hchain, hactive, hopen.activeTxn,
      show s'.txns.nextTxnPage = some p from hs.nextTxnPage]
    simp only [true_or, reduceCtorEq, hsome, or_self, ↓reduceIte]
    rfl
  have hm := hg.memory _ s.kept_read
  refine ⟨(hg.pages.rollback hopen).1, hg.chained.rolledBack hg.pages hopen hs, ?_, ?_, ?_,
    hg.slot, ?_, ?_, ?_⟩
  . intro q hq
    have hqp : p = q := Option.some.inj (hs.nextTxnPage.symm.trans hq)
    have hprepared : s'.txns.preparedTxn = s.txns.readTxn := hs.preparedTxn
    rw [← hqp, hprepared, hs.root _ hne, hs.page]
  . intro q hq
    have hq' := hpinned q hq
    rw [hs.txnId q (hq'.ne hopen)]
    exact hg.oldest q hq'
  . intro a
    rw [hread, hs.txnId _ hne]
    exact hg.stamp a
  . intro q hq
    rw [hkept q hq, hread]
  . intro q hq
    have hq' := hpinned q hq
    have hqp := hq'.ne hopen
    have hv := hg.version q hq'
    refine ⟨?_, hv.map, ?_, ?_, ?_⟩
    . rw [hroot q hqp]
      exact hv.read
    . rw [hs.txnId q hqp]
      exact hv.stamp
    . intro a ha
      rw [hread, hheap _ hne]
      exact (hv.within a ha).congr hagree
    . intro q' hq1 a ha hfree
      rw [hkept q' hq1, hheap _ hne, hs.txnId q hqp] at hfree
      exact hv.guard _ s.kept_read a ha (hfree.of_storage hagree (hv.within a ha))
  . intro q hq
    rw [hkept q hq]
    refine ⟨⟨?_, ?_⟩, ?_, hm.map, ?_⟩
    . rw [hheap _ hne, hheld]
      exact hm.stores.uses.of_storage hm.covers hagree
    . rw [hheap _ hne]
      exact hm.stores.valid
    . rw [hroot _ hne]
      exact hm.root
    . rw [hheap _ hne, hheld]
      exact hm.covers.of_storage hagree

end End

section Cursors

theorem Good.createCursor (hg : s.Good T M n) :
    Good { s with txns := s.txns.createCursor } T M (n + 1) := by
  have hr := TransactionDB.recounts_createCursor s.txns
  have hcursor := TransactionDB.cursor?_createCursor s.txns
  refine hg.recounts hr hg.pages.createCursor (hg.chained.recounts hr (Nat.le_succ n) ?_ ?_) ?_
  . have hfew := hg.chained.few
    change (s.txns.cursors ++ [some (⟨s.txns.readTxn, false⟩ : TxnCursor)]).length ≤ n + 1
    rw [List.length_append, List.length_singleton]
    exact Nat.succ_le_succ hfew
  . intro c x hx
    rw [hcursor] at hx
    split at hx
    next =>
      rw [← Option.some.inj hx]
      exact hg.chained.read
    next => exact hg.chained.cursor c x hx
  . rintro q (hq | ⟨c, x, hx, hq, hactive⟩)
    . exact Or.inl hq
    . rw [hcursor] at hx
      split at hx
      next =>
        rw [← Option.some.inj hx] at hq
        exact Or.inl hq.symm
      next => exact Or.inr ⟨c, x, hx, hq, hactive⟩

theorem Good.update (hg : s.Good T M n) (hn : n + 2 < Serial.HALF_RANGE)
    (hc : s.txns.cursor? c = some cur) :
    Good { s with txns := s.txns.update c cur } T M (n + 1) := by
  have hr := TransactionDB.recounts_update s.txns c cur
  have hcursor := hg.chained.cursor?_update hg.pages hn hc
  refine hg.recounts hr (hg.pages.update hc) (hg.chained.recounts hr (Nat.le_succ n) ?_ ?_) ?_
  . rw [TransactionDB.length_update]
    exact Nat.le_succ_of_le hg.chained.few
  . intro c' x hx
    rw [hcursor] at hx
    split at hx
    next =>
      rw [← Option.some.inj hx]
      exact hg.chained.read
    next => exact hg.chained.cursor c' x hx
  . rintro q (hq | ⟨c', x, hx, hq, hactive⟩)
    . exact Or.inl (hq.trans hr.readTxn)
    . rw [hcursor] at hx
      rw [hr.activeTxn] at hactive
      split at hx
      next =>
        rw [← Option.some.inj hx] at hq
        exact Or.inl hq.symm
      next => exact Or.inr ⟨c', x, hx, hq, hactive⟩

/-- A cursor without a transaction goes away. -/
theorem Good.dropCursor (hg : s.Good T M n) (hne : s.txns.txnCursorId ≠ some c) :
    Good { s with txns := s.txns.destroyCursor c } T M n := by
  rw [TransactionDB.destroyCursor_of_ne hne]
  cases hc : s.txns.cursor? c with
  | none => exact hg
  | some cur =>
    have hr := TransactionDB.Recounts.trans
      (TransactionDB.recounts_setRefs s.txns cur.txn ((s.txns.page cur.txn).refs - 1))
      (TransactionDB.recounts_setCursor _ c none)
    have hcursor := TransactionDB.cursor?_drop hc
    refine hg.recounts hr (hg.pages.dropCursor hc hne)
      (hg.chained.recounts hr (Nat.le_refl n) ?_ ?_) ?_
    . rw [TransactionDB.setCursor, List.length_set]
      exact hg.chained.few
    . intro c' x hx
      rw [hcursor] at hx
      split at hx
      next => cases hx
      next => exact hg.chained.cursor c' x hx
    . rintro q (hq | ⟨c', x, hx, hq, hactive⟩)
      . exact Or.inl hq
      . rw [hcursor] at hx
        split at hx
        next => cases hx
        next => exact Or.inr ⟨c', x, hx, hq, hactive⟩

end Cursors

section Start

/-- The pages of the transactions that nobody reads are queued. -/
theorem freeAll {h : Heap} {t : Trie} {l o : List Addr} (hs : h.Stores t (l ++ o))
    (hc : h.Covers (t.addrs ++ (l ++ o))) :
    h.Works (l.foldl Heap.free h) ∧ h.Keeps (l.foldl Heap.free h) ∧
      (l.foldl Heap.free h).Stores t o ∧ (l.foldl Heap.free h).Covers (t.addrs ++ o) := by
  induction l generalizing h with
  | nil => exact ⟨Heap.Works.refl h, Heap.Keeps.refl h, hs, hc⟩
  | cons a l ih =>
    have hw := Heap.free_works h a
    have hcov : (h.free a).Covers (t.addrs ++ (l ++ o)) := by
      refine hc.of_frame hw hs.free.uses fun b _ hmem hav => ⟨fun hb => hmem ?_, fun hb => ?_⟩
      . rw [List.cons_append, List.mem_append, List.mem_cons]
        exact (List.mem_append.mp hb).imp_right Or.inr
      . rcases MemManager.avail_free hb with hb | rfl
        . exact hav hb
        . exact hmem (by simp)
    obtain ⟨hw', hk', hs', hc'⟩ := ih hs.free hcov
    exact ⟨hw.trans hw', (Heap.free_keeps hs.uses.recycle a).trans hk', hs', hc'⟩

section Started

variable {txns : TransactionDB TxnContent} {freed : List Nat}

/-- The walk ends at the oldest transaction that is read. -/
theorem oldestTxnId_le (hchained : s.txns.Chained n) (hp : p ∉ s.txns.chain s.txns.readTxn)
    (hs : s.txns.Started c p cur txns) (hw : s.txns.Walked freed (txns.page p).older) {q : Nat}
    (hq : q ∈ (txns.page p).older) : oldestTxnId txns p ≤ (s.txns.page q).txnId := by
  have hasc := hchained.asc
  rw [hw.chain, List.map_append, List.pairwise_append] at hasc
  have hid : ∀ x ∈ (txns.page p).older, (txns.page x).txnId = (s.txns.page x).txnId := by
    intro x hx
    rw [hs.txnId, if_neg]
    rintro rfl
    rw [hw.chain] at hp
    exact hp (List.mem_append_right _ hx)
  have hasc := hasc.2.1
  rw [oldestTxnId]
  cases holder : (txns.page p).older with
  | nil =>
    rw [holder] at hq
    cases hq
  | cons q0 l =>
    rw [holder] at hq hasc hid
    dsimp only
    rw [hid q0 (by simp)]
    rw [List.map_cons, List.pairwise_cons] at hasc
    rcases List.mem_cons.mp hq with rfl | hq
    . exact Nat.le_refl _
    . exact Nat.le_of_lt (hasc.1 _ (List.mem_map_of_mem hq))

/-- It is the oldest one, and there is one. -/
theorem oldestTxnId_pinned (hchained : s.txns.Chained n) (hclosed : s.txns.Closed p)
    (hs : s.txns.Started c p cur txns) (hw : s.txns.Walked freed (txns.page p).older) :
    (∃ q, s.Pinned q ∧ oldestTxnId txns p = (s.txns.page q).txnId) ∧
      ∀ q, s.Pinned q → oldestTxnId txns p ≤ (s.txns.page q).txnId := by
  have hspare := hchained.spare p (Or.inl hclosed.nextTxnPage)
  have hactive : ∀ q, s.txns.activeTxn ≠ some q := by
    intro q
    rw [hclosed.activeTxn]
    simp
  refine ⟨?_, fun q hq => oldestTxnId_le hchained hspare hs hw ?_⟩
  . cases holder : (txns.page p).older with
    | nil =>
      have hread := hw.read
      rw [holder] at hread
      cases hread
    | cons q l =>
      have hne : q ≠ p := by
        rintro rfl
        rw [hw.chain, holder] at hspare
        exact hspare (by simp)
      refine ⟨q, ?_, ?_⟩
      . rcases hw.head q (by rw [holder]; rfl) with hq | ⟨c', x, hx, hq⟩
        . exact Or.inl hq
        . exact Or.inr ⟨c', x, hx, hq, hactive q⟩
      . rw [oldestTxnId, holder]
        dsimp only
        rw [hs.txnId, if_neg hne]
  . rcases hq with rfl | ⟨c', x, hx, rfl, -⟩
    . exact hw.read
    . have hmem := hchained.mem_chain hx (hactive x.txn)
      rw [hw.chain, List.mem_append] at hmem
      exact hmem.resolve_left (hw.cursor c' x hx)

/-- The transaction on the page `p` begins with what has been committed. -/
theorem Good.started (hg : s.Good T M n) (hn : n + 3 < Serial.HALF_RANGE)
    (hclosed : s.txns.Closed p) (hs : s.txns.Started c p cur txns)
    (hw : s.txns.Walked freed (txns.page p).older) (hp : txns.Pages) {own : TxnCursor}
    (hopen : txns.Open c p own) :
    let started : SnapshotDB := { s with txns, startTxnId := oldestTxnId txns p }
    started.Good (Function.update T p (T s.txns.readTxn))
      (Function.update M p (M s.txns.readTxn)) (n + 1) ∧
    (started.heap p).Stores (T s.txns.readTxn) (freed.map s.offset ++ started.held p) ∧
    (started.heap p).Covers
      ((T s.txns.readTxn).addrs ++ (freed.map s.offset ++ started.held p)) := by
  intro started
  have hne : s.txns.readTxn ≠ p := Ne.symm hclosed.ne
  have hspare := hg.chained.spare p (Or.inl hclosed.nextTxnPage)
  have hoff : s.txns.activeTxn = none := hclosed.activeTxn
  have holdest := fun q hq => oldestTxnId_le (q := q) hg.chained hspare hs hw hq
  have hread : started.txns.readTxn = s.txns.readTxn := hs.readTxn
  have hactive : started.txns.activeTxn = some p := hs.activeTxn
  have hid : ∀ q, q ≠ p → (txns.page q).txnId = (s.txns.page q).txnId := by
    intro q hq
    rw [hs.txnId, if_neg hq]
  have hchained := hg.chained.started hclosed.nextTxnPage hoff hs hw
  have hidp : (txns.page p).txnId = (s.txns.page s.txns.readTxn).txnId + 1 := by
    have ho := hopen.owned_eq
    have hsucc := (hchained.asc_active hp hn hopen (hp.open_of_owned ho).2).2
    rwa [hs.readTxn, hid _ hne] at hsucc
  have hpinned : ∀ q, started.Pinned q → s.Pinned q ∧ q ≠ p ∧ q ∈ (txns.page p).older := by
    rintro q (hq | ⟨c', x, hx, hq, hqa⟩)
    . replace hq := hq.trans hread
      rw [hq]
      exact ⟨s.pinned_read, hne, hw.read⟩
    . have hqp : q ≠ p := fun heq => hqa (heq ▸ hactive)
      replace hx := (hs.cursor c').symm.trans hx
      split at hx
      next =>
        rw [← Option.some.inj hx] at hq
        exact absurd hq.symm hqp
      next =>
        have hmem := hg.chained.mem_chain hx (by rw [hoff]; simp)
        rw [hw.chain, List.mem_append] at hmem
        refine ⟨Or.inr ⟨c', x, hx, hq, by rw [hoff]; simp⟩, hqp, ?_⟩
        rw [← hq]
        exact hmem.resolve_left (hw.cursor c' x hx)
  have hkept : ∀ q, started.Kept q → q = s.txns.readTxn ∨ q = p := by
    rintro q (hq | hq)
    . exact Or.inl (hq.trans hread)
    . exact Or.inr (Option.some.inj (hq.symm.trans hactive))
  have hrootp : (s.txns.page p).root = (s.txns.page s.txns.readTxn).root := by
    rw [hg.copy p hclosed.nextTxnPage, hclosed.preparedTxn]
  have hheap : ∀ q, q ≠ p →
      started.heap q = { s.heap q with startTxnId := oldestTxnId txns p } := by
    intro q hq
    simp only [heap, started, hs.root, hid q hq]
  have hheapp : started.heap p = { s.heap s.txns.readTxn with
      startTxnId := oldestTxnId txns p, txnId := (s.txns.page s.txns.readTxn).txnId + 1 } := by
    simp only [heap, started, hs.root, hrootp, hidp]
  have hroot : ∀ q, started.root q = s.root q := fun q => congrArg _ (hs.root q)
  have hfreeAt : ∀ q, started.Kept q → ∀ v a,
      (started.heap q).FreeAt v a → (s.heap s.txns.readTxn).FreeAt v a := by
    intro q hq v a hfree
    rcases hkept q hq with rfl | rfl
    . rwa [hheap _ hne] at hfree
    . rwa [hheapp] at hfree
  have hm := hg.memory _ s.kept_read
  have hsome : (some p : Option Nat) ≠ some s.txns.readTxn :=
    fun heq => hne (Option.some.inj heq).symm
  have hheld : s.held s.txns.readTxn = (freed ++ ((txns.page p).older ++ [p])).map s.offset := by
    rw [held, spare, hoff, hw.chain, if_pos (Or.inl rfl), hclosed.nextTxnPage,
      Option.toList_some, List.append_assoc]
  have hheld_read : started.held s.txns.readTxn = s.held s.txns.readTxn := by
    have hchain : started.txns.chain s.txns.readTxn = s.txns.chain s.txns.readTxn := by
      rw [TransactionDB.chain, TransactionDB.chain, hs.older _ hne]
    rw [held, held, spare, spare, hchain, hactive, hoff, hclosed.nextTxnPage]
    simp only [true_or, reduceCtorEq, hsome, or_self, ↓reduceIte]
    rfl
  have hheld_p : freed.map s.offset ++ started.held p = s.held s.txns.readTxn := by
    have hnext : started.txns.nextTxnPage = none := hs.nextTxnPage
    rw [hheld, held, spare, hactive, if_pos (Or.inr rfl), hnext, Option.toList_none,
      List.append_nil, List.map_append]
    rfl
  have hstores : (started.heap p).Stores (T s.txns.readTxn)
      (freed.map s.offset ++ started.held p) := by
    rw [hheld_p, hheapp]
    have hu := hm.stores.uses
    refine ⟨⟨hu.sound, ?_, hu.nodup, hu.ne_zero, hu.not_avail, hu.slot⟩, hm.stores.valid⟩
    exact Nat.le_succ_of_le (holdest _ hw.read)
  have hcovers : (started.heap p).Covers
      ((T s.txns.readTxn).addrs ++ (freed.map s.offset ++ started.held p)) := by
    rw [hheld_p, hheapp]
    exact hm.covers
  refine ⟨⟨hp, hchained, ?_, ?_, ?_, hg.slot, ?_, ?_, ?_⟩, hstores, hcovers⟩
  . intro q hq
    cases hs.nextTxnPage.symm.trans hq
  . intro q hq
    obtain ⟨-, hqp, hmem⟩ := hpinned q hq
    change oldestTxnId txns p ≤ (txns.page q).txnId
    rw [hid q hqp]
    exact holdest q hmem
  . intro a
    rw [hread]
    change (s.page a).txnId ≤ (txns.page s.txns.readTxn).txnId + 1
    rw [hid _ hne]
    exact hg.stamp a
  . intro q hq
    rw [hread, hheap _ hne]
    rcases hkept q hq with rfl | rfl
    . rw [hheap _ hne]
    . rw [hheapp]
  . intro q hq
    obtain ⟨hq', hqp, -⟩ := hpinned q hq
    have hv := hg.version q hq'
    rw [Function.update_of_ne hqp, Function.update_of_ne hqp]
    refine ⟨?_, hv.map, ?_, ?_, ?_⟩
    . rw [hroot]
      exact hv.read
    . change ∀ a ∈ (T q).addrs, (s.page a).txnId ≤ (txns.page q).txnId
      rw [hid q hqp]
      exact hv.stamp
    . rw [hread, hheap _ hne]
      exact hv.within
    . intro q' hq1 a ha hfree
      refine hv.guard _ s.kept_read a ha ?_
      rw [← hid q hqp]
      exact hfreeAt q' hq1 _ a hfree
  . intro q hq
    rcases hkept q hq with rfl | rfl
    . rw [Function.update_of_ne hne, Function.update_of_ne hne]
      refine ⟨⟨?_, ?_⟩, ?_, hm.map, ?_⟩
      . rw [hheld_read, hheap _ hne]
        have hu := hm.stores.uses
        exact ⟨hu.sound, holdest _ hw.read, hu.nodup, hu.ne_zero, hu.not_avail, hu.slot⟩
      . rw [hheap _ hne]
        exact hm.stores.valid
      . rw [hroot]
        exact hm.root
      . rw [hheld_read, hheap _ hne]
        exact hm.covers
    . rw [Function.update_self, Function.update_self]
      refine ⟨⟨?_, hstores.valid⟩, ?_, hm.map, ?_⟩
      . have hu := hstores.uses
        have hsub : ((T s.txns.readTxn).addrs ++ started.held q).Sublist
            ((T s.txns.readTxn).addrs ++ (freed.map s.offset ++ started.held q)) :=
          (List.Sublist.refl _).append (List.sublist_append_right _ _)
        exact ⟨hu.sound, hu.recycle, hu.nodup.sublist hsub,
          fun a ha => hu.ne_zero a (hsub.subset ha),
          fun a ha => hu.not_avail a (hsub.subset ha), fun a ha => hu.slot a (hsub.subset ha)⟩
      . rw [hroot, SnapshotDB.root, hrootp]
        exact hm.root
      . intro a ha
        refine hcovers a (ha.imp_left fun ha => ?_)
        rw [List.mem_append] at ha ⊢
        exact ha.imp_right (List.mem_append_right _)

theorem Good.start (hg : s.Good T M n) (hn : n + 3 < Serial.HALF_RANGE)
    (hne : s.txns.txnCursorId ≠ some c) {s' : SnapshotDB}
    (hstep : s.startTransaction c = some s') :
    ∃ p cur, s.txns.Closed p ∧ s.txns.cursor? c = some cur ∧
      s'.startTxnId = oldestTxnId (s.txns.startTxn c cur false p) p ∧
      s'.txns.core = (s.txns.startTxn c cur false p).core ∧
      s'.Good (Function.update T p (T s.txns.readTxn))
        (Function.update M p (M s.txns.readTxn)) (n + 1) := by
  rw [startTransaction, Option.map_eq_some_iff] at hstep
  obtain ⟨txns, hstart, hstep⟩ := hstep
  obtain ⟨p, hclosed⟩ : ∃ p, s.txns.Closed p := by
    rcases hg.pages.state with hclosed | ⟨c', p, own, hopen, -⟩
    . exact hclosed
    . -- the lock is held by another cursor
      rw [TransactionDB.start] at hstart
      split at hstart
      next => cases hstart
      next =>
        rw [if_neg hne, if_pos hopen.txnLock] at hstart
        cases hstart
  rw [TransactionDB.start] at hstart
  split at hstart
  next => cases hstart
  next cur hc =>
    rw [if_neg hne, if_neg (by simp [hclosed.txnLock]), hclosed.nextTxnPage, Option.map_some,
      Option.some.injEq] at hstart
    rw [hclosed.nextTxnPage] at hstep
    dsimp only at hstep
    rw [if_neg hne, ← hstart] at hstep
    have hn' : n + 2 < Serial.HALF_RANGE := Nat.lt_of_succ_lt hn
    have hs := TransactionDB.startTxn_started hc hclosed.ne
    have hw : s.txns.Walked (s.txns.lockTxn c p).freed
        ((s.txns.startTxn c cur false p).page p).older :=
      hg.chained.walked hg.pages hn' hclosed.ne
    obtain ⟨hpages, hopen⟩ := hg.pages.startTxn hc hclosed false
    obtain ⟨hg₁, hstores, hcov⟩ := hg.started hn hclosed hs hw hpages hopen
    obtain ⟨hworks, hkeeps, hstores', hcov'⟩ := freeAll hstores hcov
    have hread : (s.txns.startTxn c cur false p).preparedTxn =
        (s.txns.startTxn c cur false p).readTxn := by
      rw [hs.preparedTxn, hs.readTxn, hclosed.preparedTxn]
    have hm := hg₁.memory p (Or.inr hopen.activeTxn)
    have hmap := hm.map
    have hroot := hm.root
    rw [Function.update_self] at hroot
    rw [Function.update_self, Function.update_self] at hmap
    have hg₂ := hg₁.store hn hopen hread hworks hkeeps hstores' hmap hcov'
    rw [Function.update_idem, Function.update_idem] at hg₂
    refine ⟨p, cur, hclosed, hc, ?_, ?_, ?_⟩
    . rw [← hstep]
      rfl
    . rw [← hstep]
      rfl
    . rw [← hstep, hroot]
      exact hg₂

end Started

end Start

end SnapshotDB
end Leaves
