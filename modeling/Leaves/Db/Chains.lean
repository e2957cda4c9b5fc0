import Leaves.Db.FailedCalls
import Mathlib.Data.List.TakeWhile

/-!
The chain of the transactions from `start_txn` to `read_txn`: their ids ascend and every cursor is
on it, so that the walk of `start_transaction` frees what nobody reads and nothing else.
-/

namespace Leaves
namespace TransactionDB

variable {α : Type}

/-- The transactions from `start_txn` of the page `q` on. -/
def chain (s : TransactionDB α) (q : Nat) : List Nat := (s.page q).older ++ [q]

/-- The end of the chain: the active transaction, if there is one. -/
def newest (s : TransactionDB α) : Nat := s.activeTxn.getD s.readTxn

/-- A run of less than `n` steps has led here. -/
structure Chained (s : TransactionDB α) (n : Nat) : Prop where
  few : s.cursors.length ≤ n
  id_le : (s.page s.readTxn).txnId ≤ n + 1
  lt : ∀ q ∈ s.chain s.readTxn, q < s.pageCount
  asc : ((s.chain s.readTxn).map fun q => (s.page q).txnId).Pairwise (· < ·)
  cursor : ∀ c cur, s.cursor? c = some cur → cur.txn ∈ s.chain s.newest
  read : s.readTxn ∈ s.chain s.newest
  older : ∀ p, s.activeTxn = some p → (s.page p).older <:+ s.chain s.readTxn
  spare : ∀ p, s.nextTxnPage = some p ∨ s.activeTxn = some p → p ∉ s.chain s.readTxn

/-- Only the counts of the pages and the cursors are different. -/
structure Recounts (s s' : TransactionDB α) : Prop where
  txnId : ∀ q, (s'.page q).txnId = (s.page q).txnId
  older : ∀ q, (s'.page q).older = (s.page q).older
  root : ∀ q, (s'.page q).root = (s.page q).root
  pageCount : s'.pageCount = s.pageCount
  readTxn : s'.readTxn = s.readTxn
  preparedTxn : s'.preparedTxn = s.preparedTxn
  nextTxnPage : s'.nextTxnPage = s.nextTxnPage
  activeTxn : s'.activeTxn = s.activeTxn
  txnCursorId : s'.txnCursorId = s.txnCursorId

section Moves

variable {s s' : TransactionDB α} {n : Nat} {c : Nat} {cur : TxnCursor}

theorem Recounts.refl (s : TransactionDB α) : Recounts s s :=
  ⟨fun _ => rfl, fun _ => rfl, fun _ => rfl, rfl, rfl, rfl, rfl, rfl, rfl⟩

theorem Recounts.trans {s'' : TransactionDB α} (h : Recounts s s') (h' : Recounts s' s'') :
    Recounts s s'' :=
  ⟨fun q => (h'.txnId q).trans (h.txnId q), fun q => (h'.older q).trans (h.older q),
    fun q => (h'.root q).trans (h.root q), h'.pageCount.trans h.pageCount,
    h'.readTxn.trans h.readTxn, h'.preparedTxn.trans h.preparedTxn,
    h'.nextTxnPage.trans h.nextTxnPage, h'.activeTxn.trans h.activeTxn,
    h'.txnCursorId.trans h.txnCursorId⟩

theorem Recounts.chain (h : Recounts s s') (q : Nat) : s'.chain q = s.chain q := by
  rw [TransactionDB.chain, TransactionDB.chain, h.older]

theorem Recounts.newest (h : Recounts s s') : s'.newest = s.newest := by
  rw [TransactionDB.newest, TransactionDB.newest, h.activeTxn, h.readTxn]

theorem recounts_setRefs (s : TransactionDB α) (p : Nat) (refs : UInt32) :
    Recounts s (s.setRefs p refs) := by
  refine ⟨fun q => ?_, fun q => ?_, fun q => ?_, rfl, rfl, rfl, rfl, rfl, rfl⟩
  . rw [page_setRefs]
    split
    next hq => rw [hq]
    next => rfl
  . rw [page_setRefs]
    split
    next hq => rw [hq]
    next => rfl
  . rw [page_setRefs]
    split
    next hq => rw [hq]
    next => rfl

theorem recounts_setCursor (s : TransactionDB α) (c : Nat) (o : Option TxnCursor) :
    Recounts s (s.setCursor c o) :=
  ⟨fun _ => rfl, fun _ => rfl, fun _ => rfl, rfl, rfl, rfl, rfl, rfl, rfl⟩

theorem recounts_setTxn (s : TransactionDB α) (c : Nat) (cur : TxnCursor) (p : Nat) :
    Recounts s (s.setTxn c cur p) :=
  ((recounts_setRefs _ _ _).trans (recounts_setRefs _ _ _)).trans (recounts_setCursor _ _ _)

theorem recounts_createCursor (s : TransactionDB α) : Recounts s s.createCursor := by
  apply (recounts_setRefs s s.readTxn ((s.page s.readTxn).refs + 1)).trans
  exact ⟨fun _ => rfl, fun _ => rfl, fun _ => rfl, rfl, rfl, rfl, rfl, rfl, rfl⟩

theorem cursor?_createCursor (s : TransactionDB α) (c : Nat) : s.createCursor.cursor? c =
    if c = s.cursors.length then some ⟨s.readTxn, false⟩ else s.cursor? c := by
  change ((s.cursors ++ [some (⟨s.readTxn, false⟩ : TxnCursor)])[c]?).join = _
  rw [List.getElem?_append]
  split
  next hlt =>
    rw [if_neg (Nat.ne_of_lt hlt)]
    rfl
  next hge =>
    split
    next heq => simp [heq]
    next hne =>
      rw [cursor?, List.getElem?_eq_none (by simp; omega), List.getElem?_eq_none (by omega)]

theorem recounts_update (s : TransactionDB α) (c : Nat) (cur : TxnCursor) :
    Recounts s (s.update c cur) := by
  unfold TransactionDB.update
  split
  . exact Recounts.refl s
  . split
    . exact recounts_setTxn s c cur s.readTxn
    . exact Recounts.refl s

theorem length_update (s : TransactionDB α) (c : Nat) (cur : TxnCursor) :
    (s.update c cur).cursors.length = s.cursors.length := by
  unfold TransactionDB.update
  split
  . rfl
  . split
    . exact List.length_set
    . rfl

/-- A cursor that has no transaction is only taken off its page. -/
theorem destroyCursor_of_ne (hne : s.txnCursorId ≠ some c) : s.destroyCursor c =
    match s.cursor? c with
    | none => s
    | some cur => (s.setRefs cur.txn ((s.page cur.txn).refs - 1)).setCursor c none := by
  have heq : s.rollback c = s := by
    have ho : s.owned c = none := by rw [owned, if_neg hne]
    rw [TransactionDB.rollback, ho]
  cases hc : s.cursor? c with
  | none => simp only [destroyCursor, heq, hc]
  | some cur => simp only [destroyCursor, heq, hc]

theorem cursor?_drop (hc : s.cursor? c = some cur) (c' : Nat) :
    ((s.setRefs cur.txn ((s.page cur.txn).refs - 1)).setCursor c none).cursor? c' =
      if c' = c then none else s.cursor? c' :=
  cursor?_set hc c'

theorem Chained.recounts (h : s.Chained n) (hr : Recounts s s') {n' : Nat} (hle : n ≤ n')
    (hfew : s'.cursors.length ≤ n')
    (hcursor : ∀ c cur, s'.cursor? c = some cur → cur.txn ∈ s.chain s.newest) :
    s'.Chained n' := by
  have hid : (fun q => (s'.page q).txnId) = fun q => (s.page q).txnId := funext hr.txnId
  refine ⟨hfew, ?_, ?_, ?_, ?_, ?_, ?_, ?_⟩
  . rw [hr.txnId, hr.readTxn]
    exact Nat.le_trans h.id_le (Nat.succ_le_succ hle)
  . rw [hr.chain, hr.readTxn, hr.pageCount]
    exact h.lt
  . rw [hid, hr.chain, hr.readTxn]
    exact h.asc
  . rw [hr.chain, hr.newest]
    exact hcursor
  . rw [hr.chain, hr.newest, hr.readTxn]
    exact h.read
  . rw [hr.activeTxn, hr.chain, hr.readTxn]
    intro p hp
    rw [hr.older]
    exact h.older p hp
  . rw [hr.nextTxnPage, hr.activeTxn, hr.chain, hr.readTxn]
    exact h.spare

/-- The ids on the chain before the committed transaction are smaller. -/
theorem Chained.id_lt (h : s.Chained n) {q : Nat} (hq : q ∈ s.chain s.readTxn)
    (hne : q ≠ s.readTxn) : (s.page q).txnId < (s.page s.readTxn).txnId := by
  have hasc := h.asc
  rw [chain, List.map_append, List.pairwise_append] at hasc
  rw [chain, List.mem_append, List.mem_singleton] at hq
  rcases hq with hq | hq
  . exact hasc.2.2 _ (List.mem_map_of_mem hq) _ (by simp)
  . exact absurd hq hne

/-- A cursor that is not on the active transaction is on the chain of the committed one. -/
theorem Chained.mem_chain (h : s.Chained n) (hc : s.cursor? c = some cur)
    (hactive : s.activeTxn ≠ some cur.txn) : cur.txn ∈ s.chain s.readTxn := by
  have hmem := h.cursor c cur hc
  cases ha : s.activeTxn with
  | none =>
    rw [newest, ha] at hmem
    exact hmem
  | some p =>
    rw [newest, ha, Option.getD_some, chain, List.mem_append, List.mem_singleton] at hmem
    rcases hmem with hmem | hmem
    . exact (h.older p ha).subset hmem
    . exact absurd (ha.trans (congrArg some hmem.symm)) hactive

/-- The update goes to the committed transaction, unless the cursor has a newer one of its own. -/
theorem Chained.cursor?_update (h : s.Chained n) (hp : s.Pages) (hn : n + 2 < Serial.HALF_RANGE)
    (hc : s.cursor? c = some cur) (c' : Nat) : (s.update c cur).cursor? c' =
      if c' = c ∧ s.activeTxn ≠ some cur.txn then some { cur with txn := s.readTxn }
      else s.cursor? c' := by
  unfold TransactionDB.update
  split
  next heq =>
    split
    next hcc =>
      rw [hcc.1, hc, heq]
    next => rfl
  next hne =>
    by_cases hactive : s.activeTxn = some cur.txn
    . -- the active transaction is newer
      obtain ⟨c1, p, own, hopen, hid⟩ : ∃ c1 p own, s.Open c1 p own ∧
          (s.page p).txnId = Serial.add (s.page s.readTxn).txnId 1 := by
        rcases hp.state with ⟨m, hclosed⟩ | hopen
        . rw [hclosed.activeTxn] at hactive
          cases hactive
        . exact hopen
      have hpc : p = cur.txn := Option.some.inj (hopen.activeTxn.symm.trans hactive)
      rw [← hpc, hid, Serial.not_add_one_lt hp.pos hp.max]
      simp [hactive, hpc]
    . have hlt : Serial.lt (s.page cur.txn).txnId (s.page s.readTxn).txnId = true := by
        have hid := h.id_lt (h.mem_chain hc hactive) (Ne.symm hne)
        have hle := h.id_le
        have hpos := hp.pos
        rw [Serial.lt]
        split
        . simpa using hid
        . rw [decide_eq_true_eq]
          omega
      rw [if_pos hlt]
      have hset : (s.setTxn c cur s.readTxn).cursor? c' =
          if c' = c then some { cur with txn := s.readTxn } else s.cursor? c' :=
        cursor?_set hc c'
      rw [hset]
      by_cases hcc : c' = c
      . rw [if_pos hcc, if_pos ⟨hcc, hactive⟩]
      . rw [if_neg hcc, if_neg fun hboth => hcc hboth.1]

end Moves

section Start

variable {s : TransactionDB α} {n : Nat} {c p : Nat} {cur : TxnCursor}

/-- `start_transaction` on the page `p`, up to the counts. -/
structure Started (s : TransactionDB α) (c p : Nat) (cur : TxnCursor) (s' : TransactionDB α) :
    Prop where
  txnId : ∀ q, (s'.page q).txnId =
    if q = p then Serial.add (s.page s.readTxn).txnId 1 else (s.page q).txnId
  older : ∀ q, q ≠ p → (s'.page q).older = (s.page q).older
  root : ∀ q, (s'.page q).root = (s.page q).root
  pageCount : s'.pageCount = s.pageCount
  readTxn : s'.readTxn = s.readTxn
  preparedTxn : s'.preparedTxn = s.preparedTxn
  nextTxnPage : s'.nextTxnPage = none
  activeTxn : s'.activeTxn = some p
  txnCursorId : s'.txnCursorId = some c
  cursors : s'.cursors.length = s.cursors.length
  cursor : ∀ c', s'.cursor? c' = if c' = c then some { cur with txn := p } else s.cursor? c'

theorem startTxn_started (hc : s.cursor? c = some cur) (hne : p ≠ s.readTxn) :
    s.Started c p { cur with useWal := false } (s.startTxn c cur false p) := by
  let s₁ : TransactionDB α := { s with walOpen := s.walOpen || false }
  let s₂ := (s₁.lockTxn c p).endWalk p
  have heq : s.startTxn c cur false p = s₂.setTxn c { cur with useWal := false } p := rfl
  have hr := recounts_setTxn s₂ c { cur with useWal := false } p
  have hpage := page_endWalk (s := s₁) (c := c) hne
  rw [heq]
  refine ⟨fun q => ?_, fun q hq => ?_, fun q => ?_, hr.pageCount, hr.readTxn, hr.preparedTxn,
    hr.nextTxnPage, hr.activeTxn, hr.txnCursorId, ?_, ?_⟩
  . exact (hr.txnId q).trans (hpage q).2.2
  . refine (hr.older q).trans ?_
    simp only [s₂, endWalk, lockTxn, setRefs, setPage, Function.update_apply]
    by_cases hread : q = s.readTxn
    . rw [hread] at hq ⊢
      simp [s₁, hq]
    . simp [s₁, hq, hread]
  . exact (hr.root q).trans (hpage q).2.1
  . change (s₂.cursors.set c _).length = _
    rw [List.length_set]
    rfl
  . exact fun c' => cursor?_set (s := s₂) hc c'

/-- The walk frees a front part of the chain that nobody reads, and goes no further. -/
structure Walked (s : TransactionDB α) (freed older : List Nat) : Prop where
  chain : s.chain s.readTxn = freed ++ older
  read : s.readTxn ∈ older
  cursor : ∀ c cur, s.cursor? c = some cur → cur.txn ∉ freed
  head : ∀ q, older.head? = some q → q = s.readTxn ∨ ∃ c cur, s.cursor? c = some cur ∧ cur.txn = q

theorem Chained.walked (h : s.Chained n) (hp : s.Pages) (hn : n + 2 < Serial.HALF_RANGE)
    (hne : p ≠ s.readTxn) :
    s.Walked (s.lockTxn c p).freed ((s.startTxn c cur false p).page p).older := by
  have hsmall : ∀ q, s.cursors.countP (reads q) < 2 ^ 32 - 1 := by
    intro q
    have hle := List.countP_le_length (p := reads q) (l := s.cursors)
    have hfew := h.few
    simp only [Serial.HALF_RANGE] at hn
    omega
  have hrefs : ∀ q, ((s.lockTxn c p).page q).refs =
      if q = s.readTxn then UInt32.ofNat (s.cursors.countP (reads q) + 1)
      else UInt32.ofNat (s.cursors.countP (reads q)) := by
    intro q
    have hq := hp.refs q
    simp only [lockTxn, setRefs, setPage, Function.update_apply]
    by_cases hread : q = s.readTxn
    . rw [hread] at hq ⊢
      simp only [Ne.symm hne, ↓reduceIte]
      rw [hq]
      exact ofNat_add_one rfl
    . rw [if_neg hread, if_neg hread]
      split
      next heq => rw [← heq]; exact hq
      next => exact hq
  have hzero : ∀ q, ((s.lockTxn c p).page q).refs = 0 ↔
      q ≠ s.readTxn ∧ s.cursors.countP (reads q) = 0 := by
    intro q
    have hq := hsmall q
    rw [hrefs, ← UInt32.toNat_inj]
    split
    next hread =>
      rw [UInt32.toNat_ofNat_of_lt' (by simp only [UInt32.size]; omega)]
      simp [hread]
    next hread =>
      rw [UInt32.toNat_ofNat_of_lt' (by simp only [UInt32.size]; omega)]
      simp [hread]
  have hwalk : (s.lockTxn c p).walk = s.chain s.readTxn := by
    simp only [walk, chain, lockTxn, setRefs, setPage, Function.update_apply, Ne.symm hne,
      ↓reduceIte]
  have holder : ((s.startTxn c cur false p).page p).older =
      (s.lockTxn c p).walk.dropWhile fun q => ((s.lockTxn c p).page q).refs = 0 := by
    let s₁ : TransactionDB α := { s with walOpen := s.walOpen || false }
    let s₂ := (s₁.lockTxn c p).endWalk p
    refine ((recounts_setTxn s₂ c { cur with useWal := false } p).older p).trans ?_
    simp only [s₂, endWalk, setRefs, setPage, Function.update_apply]
    have hlock : (s₁.lockTxn c p).readTxn ≠ p := Ne.symm hne
    rw [if_neg hlock.symm]
    simp only [↓reduceIte]
    rfl
  have hsplit : s.chain s.readTxn = (s.lockTxn c p).freed ++
      ((s.startTxn c cur false p).page p).older := by
    rw [holder, freed, List.takeWhile_append_dropWhile, hwalk]
  have hfreed : ∀ q ∈ (s.lockTxn c p).freed, q ≠ s.readTxn ∧ s.cursors.countP (reads q) = 0 := by
    intro q hq
    rw [← hzero]
    simpa using List.mem_takeWhile_imp hq
  refine ⟨hsplit, ?_, ?_, ?_⟩
  . have hmem : s.readTxn ∈ s.chain s.readTxn := by simp [chain]
    rw [hsplit, List.mem_append] at hmem
    rcases hmem with hmem | hmem
    . exact absurd rfl (hfreed _ hmem).1
    . exact hmem
  . intro c' x hx hmem
    have hcount := (hfreed _ hmem).2
    rw [List.countP_eq_zero] at hcount
    rw [cursor?_eq_some] at hx
    exact hcount _ (List.mem_of_getElem? hx) (by simp [reads])
  . intro q hq
    rw [holder] at hq
    have hnot := List.head?_dropWhile_not (p := fun q => ((s.lockTxn c p).page q).refs = 0)
      (l := (s.lockTxn c p).walk)
    rw [hq] at hnot
    by_contra hcon
    rw [not_or] at hcon
    have hz : ((s.lockTxn c p).page q).refs = 0 := by
      rw [hzero]
      refine ⟨hcon.1, countP_eq_zero fun c' x hx heq => hcon.2 ⟨c', x, hx, heq⟩⟩
    simp [hz] at hnot

theorem Chained.started {s' : TransactionDB α} {freed : List Nat} (h : s.Chained n)
    (hnext : s.nextTxnPage = some p) (hactive : s.activeTxn = none) (hs : s.Started c p cur s')
    (hw : s.Walked freed (s'.page p).older) : s'.Chained (n + 1) := by
  have hspare := h.spare p (Or.inl hnext)
  have hread : s.readTxn ≠ p := by
    rintro rfl
    exact hspare (by simp [chain])
  have hchain : s'.chain s.readTxn = s.chain s.readTxn := by
    rw [chain, chain, hs.older _ hread]
  have hnewest : s'.newest = p := by rw [newest, hs.activeTxn, Option.getD_some]
  refine ⟨?_, ?_, ?_, ?_, ?_, ?_, ?_, ?_⟩
  . rw [hs.cursors]
    exact Nat.le_succ_of_le h.few
  . rw [hs.readTxn, hs.txnId, if_neg hread]
    exact Nat.le_succ_of_le h.id_le
  . rw [hs.readTxn, hchain, hs.pageCount]
    exact h.lt
  . rw [hs.readTxn, hchain]
    have hid : (s.chain s.readTxn).map (fun q => (s'.page q).txnId) =
        (s.chain s.readTxn).map fun q => (s.page q).txnId := by
      refine List.map_congr_left fun q hq => ?_
      rw [hs.txnId, if_neg]
      rintro rfl
      exact hspare hq
    rw [hid]
    exact h.asc
  . intro c' x hx
    rw [hnewest, chain, List.mem_append, List.mem_singleton]
    rw [hs.cursor] at hx
    split at hx
    next =>
      rw [← Option.some.inj hx]
      exact Or.inr rfl
    next =>
      have hmem := h.mem_chain hx (by rw [hactive]; simp)
      rw [hw.chain, List.mem_append] at hmem
      exact Or.inl (hmem.resolve_left (hw.cursor c' x hx))
  . rw [hs.readTxn, hnewest, chain, List.mem_append]
    exact Or.inl hw.read
  . intro q hq
    rw [hs.activeTxn, Option.some.injEq] at hq
    rw [hs.readTxn, hchain, ← hq, hw.chain]
    exact List.suffix_append _ _
  . intro q hq
    rw [hs.nextTxnPage, hs.activeTxn] at hq
    rw [hs.readTxn, hchain]
    rcases hq with hq | hq
    . cases hq
    . rw [← Option.some.inj hq]
      exact hspare

end Start

section Ending

variable {s s' : TransactionDB α} {n : Nat} {c p : Nat} {cur : TxnCursor}

/-- `prepare_commit` of the transaction on the page `p`: its copy is for the next one. -/
structure Prepared (s : TransactionDB α) (p : Nat) (s' : TransactionDB α) : Prop where
  page : ∀ q, s'.page q = if q = s.pageCount then { s.page p with refs := 0 } else s.page q
  pageCount : s'.pageCount = s.pageCount + 1
  readTxn : s'.readTxn = s.readTxn
  preparedTxn : s'.preparedTxn = p
  nextTxnPage : s'.nextTxnPage = some s.pageCount
  activeTxn : s'.activeTxn = s.activeTxn
  txnCursorId : s'.txnCursorId = s.txnCursorId
  cursors : s'.cursors = s.cursors

/-- `commit` of the prepared transaction on the page `p`. -/
structure Committed (s : TransactionDB α) (p : Nat) (s' : TransactionDB α) : Prop where
  page : s'.page = s.page
  pageCount : s'.pageCount = s.pageCount
  readTxn : s'.readTxn = p
  preparedTxn : s'.preparedTxn = p
  nextTxnPage : s'.nextTxnPage = s.nextTxnPage
  activeTxn : s'.activeTxn = none
  txnCursorId : s'.txnCursorId = none
  cursors : s'.cursors = s.cursors

/-- `rollback` of the transaction on the page `p`, up to the counts of the committed one. -/
structure RolledBack (s : TransactionDB α) (c p : Nat) (cur : TxnCursor) (s' : TransactionDB α) :
    Prop where
  page : s'.page p = { s.page s.readTxn with refs := 0 }
  txnId : ∀ q, q ≠ p → (s'.page q).txnId = (s.page q).txnId
  older : ∀ q, q ≠ p → (s'.page q).older = (s.page q).older
  root : ∀ q, q ≠ p → (s'.page q).root = (s.page q).root
  pageCount : s'.pageCount = s.pageCount
  readTxn : s'.readTxn = s.readTxn
  preparedTxn : s'.preparedTxn = s.readTxn
  nextTxnPage : s'.nextTxnPage = some p
  activeTxn : s'.activeTxn = none
  txnCursorId : s'.txnCursorId = none
  cursors : s'.cursors.length = s.cursors.length
  cursor : ∀ c', s'.cursor? c' = if c' = c then some { cur with txn := s.readTxn } else s.cursor? c'

theorem prepareCommit_eq (hopen : s.Open c p cur) :
    ∃ s₁ : TransactionDB α,
      s₁.core = s.core ∧ s₁.page = s.page ∧ s.prepareCommit c = s₁.prepareTxn p := by
  rw [TransactionDB.prepareCommit, hopen.owned_eq]
  dsimp only
  split
  . exact ⟨s.walPrepare, (core_walPrepare s).1, (core_walPrepare s).2, rfl⟩
  . exact ⟨s, rfl, rfl, rfl⟩

theorem prepareCommit_prepared (hopen : s.Open c p cur) (hread : s.preparedTxn = s.readTxn) :
    s.Prepared p (s.prepareCommit c) := by
  obtain ⟨s₁, hcore, hpage, heq⟩ := prepareCommit_eq hopen
  simp only [core, Prod.mk.injEq] at hcore
  obtain ⟨hcount, hread₁, hprepared, hnext, -, hid, hactive, hcursors⟩ := hcore
  rw [heq, prepareTxn, if_neg (by rw [hprepared, hread₁]; exact fun hne => hne hread)]
  refine ⟨fun q => ?_, ?_, hread₁, rfl, congrArg some hcount, hactive, hid, hcursors⟩
  . change Function.update s₁.page s₁.pageCount { s₁.page p with refs := 0 } q = _
    rw [Function.update_apply, hpage, hcount]
  . exact congrArg (· + 1) hcount

/-- A second `prepare_commit` does nothing. -/
theorem prepareCommit_again (hopen : s.Open c p cur) (hprepared : s.preparedTxn = p) :
    (s.prepareCommit c).core = s.core ∧ (s.prepareCommit c).page = s.page := by
  obtain ⟨s₁, hcore, hpage, heq⟩ := prepareCommit_eq hopen
  have hopen₁ := hopen.of_core hcore
  have hprepared₁ : s₁.preparedTxn = p := by
    simp only [core, Prod.mk.injEq] at hcore
    rw [hcore.2.2.1, hprepared]
  rw [heq, prepareTxn, if_pos (by rw [hprepared₁]; exact hopen₁.ne)]
  exact ⟨hcore, hpage⟩

/-- `commit` of a prepared transaction only makes it the committed one. -/
theorem commit_eq (hopen : s.Open c p cur) (hprepared : s.preparedTxn = p) :
    s.commit c = { ((s.walCommitted cur).switchTxn).endTransaction with
      succeeded := (s.walCommitted cur).succeeded ++ [(s.walCommitted cur).number] } := by
  obtain ⟨hcore, -⟩ := core_walCommitted s cur
  have hopen₁ := hopen.of_core hcore
  simp only [core, Prod.mk.injEq] at hcore
  rw [TransactionDB.commit, hopen.owned_eq]
  dsimp only
  rw [prepareTxn, if_pos (by rw [hcore.2.2.1, hprepared]; exact hopen₁.ne)]
  rfl

theorem commit_committed (hopen : s.Open c p cur) (hprepared : s.preparedTxn = p) :
    s.Committed p (s.commit c) := by
  obtain ⟨hcore, hpage⟩ := core_walCommitted s cur
  simp only [core, Prod.mk.injEq] at hcore
  obtain ⟨hcount, hread₁, hprepared₁, hnext, -, hid, hactive, hcursors⟩ := hcore
  rw [commit_eq hopen hprepared]
  exact ⟨hpage, hcount, hprepared₁.trans hprepared, hprepared₁.trans hprepared, hnext, rfl, rfl,
    hcursors⟩

theorem Pages.commit (h : s.Pages) (hopen : s.Open c p cur) (hprepared : s.preparedTxn = p) :
    (s.commit c).Pages := by
  obtain ⟨hcore, hpage⟩ := core_walCommitted s cur
  have hpages := h.of_log hcore hpage
  have hopen₁ := hopen.of_core hcore
  have hid := (hpages.open_of_owned hopen₁.owned_eq).2
  have hprepared₁ : (s.walCommitted cur).preparedTxn = p := by
    simp only [core, Prod.mk.injEq] at hcore
    exact hcore.2.2.1.trans hprepared
  rw [commit_eq hopen hprepared]
  exact (hpages.switchTxn hopen₁ hid hprepared₁).of_log rfl rfl

theorem rollback_rolledBack (hopen : s.Open c p cur) : s.RolledBack c p cur (s.rollback c) := by
  obtain ⟨hcore, hpage⟩ := core_dropLog s cur
  have hopen₁ := hopen.of_core hcore
  simp only [core, Prod.mk.injEq] at hcore
  obtain ⟨hcount, hread, -, -, -, -, -, hcursors⟩ := hcore
  let s₂ := (s.dropLog cur).rollbackTxn p
  have heq : s.rollback c =
      (s₂.setRefs s₂.readTxn ((s₂.page s₂.readTxn).refs + 1)).setCursor c
        (some { cur with txn := s₂.readTxn }) := by
    rw [TransactionDB.rollback, hopen.owned_eq]
    rfl
  have hr : Recounts s₂ (s.rollback c) := by
    rw [heq]
    exact (recounts_setRefs _ _ _).trans (recounts_setCursor _ _ _)
  have hpage₂ : ∀ q, s₂.page q =
      if q = p then { s.page s.readTxn with refs := 0 } else s.page q := by
    intro q
    change Function.update (s.dropLog cur).page p
      { (s.dropLog cur).page (s.dropLog cur).readTxn with refs := 0 } q = _
    rw [Function.update_apply, hpage, hread]
  refine ⟨?_, fun q hq => ?_, fun q hq => ?_, fun q hq => ?_, hr.pageCount.trans hcount,
    hr.readTxn.trans hread, hr.preparedTxn.trans hread, hr.nextTxnPage, hr.activeTxn,
    hr.txnCursorId, ?_, ?_⟩
  . have hp := hpage₂ p
    rw [if_pos rfl] at hp
    rw [heq, setCursor]
    simp only [page_setRefs]
    rw [if_neg (fun h : p = s₂.readTxn => hopen.ne (h.trans hread)), hp]
  . rw [hr.txnId, hpage₂, if_neg hq]
  . rw [hr.older, hpage₂, if_neg hq]
  . rw [hr.root, hpage₂, if_neg hq]
  . rw [heq]
    change ((s.dropLog cur).cursors.set c _).length = _
    rw [List.length_set, hcursors]
  . intro c'
    rw [heq]
    have hc : (s₂.setRefs s₂.readTxn ((s₂.page s₂.readTxn).refs + 1)).cursor? c = some cur :=
      hopen₁.cursor
    rw [cursor?_set hc]
    split
    . rw [show s₂.readTxn = s.readTxn from hread]
    . change (s.dropLog cur).cursor? c' = s.cursor? c'
      rw [cursor?, cursor?, hcursors]

/-- The pages of the chain are older than those that are new. -/
theorem Chained.prepared (h : s.Chained n) (hp : p < s.pageCount) (hactive : s.activeTxn = some p)
    (hs : s.Prepared p s') : s'.Chained n := by
  have hne : ∀ q, q < s.pageCount → s'.page q = s.page q := by
    intro q hq
    rw [hs.page, if_neg (Nat.ne_of_lt hq)]
  have hread : s.readTxn < s.pageCount := h.lt s.readTxn (by simp [chain])
  have hchain : ∀ q, q < s.pageCount → s'.chain q = s.chain q := by
    intro q hq
    rw [chain, chain, hne q hq]
  have hnewest : s'.newest = s.newest := by rw [newest, newest, hs.activeTxn, hs.readTxn]
  have hcursor : ∀ c', s'.cursor? c' = s.cursor? c' := by
    intro c'
    rw [cursor?, cursor?, hs.cursors]
  have hlt : s.newest < s.pageCount := by rwa [newest, hactive, Option.getD_some]
  refine ⟨?_, ?_, ?_, ?_, ?_, ?_, ?_, ?_⟩
  . rw [hs.cursors]
    exact h.few
  . rw [hs.readTxn, hne _ hread]
    exact h.id_le
  . rw [hs.readTxn, hchain _ hread, hs.pageCount]
    exact fun q hq => Nat.lt_succ_of_lt (h.lt q hq)
  . rw [hs.readTxn, hchain _ hread]
    have hid : (s.chain s.readTxn).map (fun q => (s'.page q).txnId) =
        (s.chain s.readTxn).map fun q => (s.page q).txnId :=
      List.map_congr_left fun q hq => by rw [hne q (h.lt q hq)]
    rw [hid]
    exact h.asc
  . rw [hnewest, hchain _ hlt]
    intro c' x hx
    rw [hcursor] at hx
    exact h.cursor c' x hx
  . rw [hs.readTxn, hnewest, hchain _ hlt]
    exact h.read
  . rw [hs.activeTxn, hs.readTxn, hchain _ hread]
    intro q hq
    have hqp : q = p := Option.some.inj (hq.symm.trans hactive)
    rw [hne q (hqp ▸ hp)]
    exact h.older q hq
  . rw [hs.nextTxnPage, hs.activeTxn, hs.readTxn, hchain _ hread]
    intro q hq
    rcases hq with hq | hq
    . rw [← Option.some.inj hq]
      exact fun hmem => Nat.lt_irrefl _ (h.lt _ hmem)
    . exact h.spare q (Or.inr hq)

/-- The chain of the active transaction. -/
theorem Chained.asc_active (h : s.Chained n) (hp : s.Pages) (hn : n + 2 < Serial.HALF_RANGE)
    (hopen : s.Open c p cur) (hid : (s.page p).txnId = Serial.add (s.page s.readTxn).txnId 1) :
    ((s.chain p).map fun q => (s.page q).txnId).Pairwise (· < ·) ∧
      (s.page p).txnId = (s.page s.readTxn).txnId + 1 := by
  have hpos := hp.pos
  have hle := h.id_le
  simp only [Serial.HALF_RANGE] at hn
  have hsucc : (s.page p).txnId = (s.page s.readTxn).txnId + 1 := by
    rw [hid, Serial.add, Serial.MAX_VALUE, if_neg (by omega), Nat.mod_eq_of_lt (by omega)]
    omega
  refine ⟨?_, hsucc⟩
  rw [chain, List.map_append, List.pairwise_append]
  have hsuffix := h.older p hopen.activeTxn
  refine ⟨h.asc.sublist (hsuffix.sublist.map _), by simp, ?_⟩
  intro x hx y hy
  obtain ⟨q, hq, rfl⟩ := List.mem_map.mp hx
  rw [List.map_singleton, List.mem_singleton] at hy
  rw [hy, hsucc]
  by_cases hread : q = s.readTxn
  . rw [hread]
    exact Nat.lt_succ_self _
  . exact Nat.lt_succ_of_lt (h.id_lt (hsuffix.subset hq) hread)

theorem Chained.committed (h : s.Chained n) (hp : s.Pages) (hn : n + 2 < Serial.HALF_RANGE)
    (hopen : s.Open c p cur) (hid : (s.page p).txnId = Serial.add (s.page s.readTxn).txnId 1)
    (hs : s.Committed p s') : s'.Chained (n + 1) := by
  obtain ⟨hasc, hsucc⟩ := h.asc_active hp hn hopen hid
  have hplt : p < s.pageCount := hopen.txn ▸ (hp.cursor c cur hopen.cursor).lt
  have hchain : s'.chain p = s.chain p := by rw [chain, chain, hs.page]
  have hnewest : s.newest = p := by rw [newest, hopen.activeTxn, Option.getD_some]
  have hnewest' : s'.newest = p := by rw [newest, hs.activeTxn, hs.readTxn, Option.getD_none]
  have hsubset := (h.older p hopen.activeTxn).subset
  refine ⟨?_, ?_, ?_, ?_, ?_, ?_, ?_, ?_⟩
  . rw [hs.cursors]
    exact Nat.le_succ_of_le h.few
  . rw [hs.readTxn, hs.page, hsucc]
    exact Nat.succ_le_succ h.id_le
  . rw [hs.readTxn, hchain, hs.pageCount]
    intro q hq
    rw [chain, List.mem_append, List.mem_singleton] at hq
    rcases hq with hq | rfl
    . exact h.lt q (hsubset hq)
    . exact hplt
  . rw [hs.readTxn, hchain, hs.page]
    exact hasc
  . rw [hnewest', hchain]
    intro c' x hx
    rw [cursor?, hs.cursors] at hx
    have hmem := h.cursor c' x hx
    rwa [hnewest] at hmem
  . rw [hs.readTxn, hnewest', chain]
    simp
  . rw [hs.activeTxn]
    rintro q ⟨⟩
  . rw [hs.nextTxnPage, hs.activeTxn, hs.readTxn, hchain]
    intro q hq hmem
    rcases hq with hq | hq
    . rw [chain, List.mem_append, List.mem_singleton] at hmem
      rcases hmem with hmem | rfl
      . exact h.spare q (Or.inl hq) (hsubset hmem)
      . -- the page for the next transaction is another one
        rcases hopen.next with ⟨-, hnone⟩ | ⟨-, m, hm, -, hne, -⟩
        . rw [hnone] at hq
          cases hq
        . exact hne (Option.some.inj (hm.symm.trans hq))
    . cases hq

theorem Chained.rolledBack (h : s.Chained n) (hp : s.Pages) (hopen : s.Open c p cur)
    (hs : s.RolledBack c p cur s') : s'.Chained (n + 1) := by
  have hspare := h.spare p (Or.inr hopen.activeTxn)
  have hread : s.readTxn ≠ p := Ne.symm hopen.ne
  have hchain : s'.chain s.readTxn = s.chain s.readTxn := by
    rw [chain, chain, hs.older _ hread]
  have hnewest : s'.newest = s.readTxn := by rw [newest, hs.activeTxn, hs.readTxn, Option.getD_none]
  have hmem : s.readTxn ∈ s.chain s.readTxn := by simp [chain]
  refine ⟨?_, ?_, ?_, ?_, ?_, ?_, ?_, ?_⟩
  . rw [hs.cursors]
    exact Nat.le_succ_of_le h.few
  . rw [hs.readTxn, hs.txnId _ hread]
    exact Nat.le_succ_of_le h.id_le
  . rw [hs.readTxn, hchain, hs.pageCount]
    exact h.lt
  . rw [hs.readTxn, hchain]
    have hid : (s.chain s.readTxn).map (fun q => (s'.page q).txnId) =
        (s.chain s.readTxn).map fun q => (s.page q).txnId := by
      refine List.map_congr_left fun q hq => hs.txnId q ?_
      rintro rfl
      exact hspare hq
    rw [hid]
    exact h.asc
  . rw [hnewest, hchain]
    intro c' x hx
    rw [hs.cursor] at hx
    split at hx
    next =>
      rw [← Option.some.inj hx]
      exact hmem
    next hne =>
      refine h.mem_chain hx fun hactive => hne ?_
      have hown := (hp.cursor c' x hx).active hactive
      exact (Option.some.inj (hopen.txnCursorId.symm.trans hown)).symm
  . rw [hs.readTxn, hnewest, hchain]
    exact hmem
  . rw [hs.activeTxn]
    rintro q ⟨⟩
  . rw [hs.nextTxnPage, hs.activeTxn, hs.readTxn, hchain]
    intro q hq
    rcases hq with hq | hq
    . rw [← Option.some.inj hq]
      exact hspare
    . cases hq

end Ending

end TransactionDB
end Leaves
