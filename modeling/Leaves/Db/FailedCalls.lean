import Leaves.Db.Transactions

/-!
Calls that end with an exception: whether the database can be used afterwards, and whether the
transaction may be found committed later.
-/

namespace Leaves

/-- The cursor of a call. -/
def FailedCall.cursor : FailedCall → Nat
  | openWal c | startFree c _ _ | prepareWrite c | prepareSync c | prepareClone c | prepareFlush c
  | commitWrite c | commitSync c | commitSubmit c | commitClone c | commitFlush c => c

namespace TransactionDB

variable {α : Type}

/-- The cursor reads the page `p`. -/
def reads (p : Nat) (o : Option TxnCursor) : Bool := o.any fun cur => cur.txn = p

/-- Every cursor is counted by the page of its transaction. -/
def RefsOk (s : TransactionDB α) : Prop :=
  ∀ p, (s.page p).refs = UInt32.ofNat (s.cursors.countP (reads p))

/-- No transaction is open. -/
structure Closed (s : TransactionDB α) (n : Nat) : Prop where
  txnLock : s.txnLock = false
  txnCursorId : s.txnCursorId = none
  activeTxn : s.activeTxn = none
  preparedTxn : s.preparedTxn = s.readTxn
  nextTxnPage : s.nextTxnPage = some n
  lt : n < s.pageCount
  ne : n ≠ s.readTxn

/-- The cursor `c` has a transaction on the page `p`, which may have been prepared. -/
structure Open (s : TransactionDB α) (c p : Nat) (cur : TxnCursor) : Prop where
  txnLock : s.txnLock = true
  txnCursorId : s.txnCursorId = some c
  activeTxn : s.activeTxn = some p
  cursor : s.cursor? c = some cur
  txn : cur.txn = p
  ne : p ≠ s.readTxn
  next : s.preparedTxn = s.readTxn ∧ s.nextTxnPage = none ∨
    s.preparedTxn = p ∧ ∃ n, s.nextTxnPage = some n ∧ n < s.pageCount ∧ n ≠ p ∧ n ≠ s.readTxn

/-- What is true of a cursor. -/
structure CursorInv (s : TransactionDB α) (c : Nat) (cur : TxnCursor) : Prop where
  lt : cur.txn < s.pageCount
  next : s.nextTxnPage ≠ some cur.txn
  active : s.activeTxn = some cur.txn → s.txnCursorId = some c

/-- The pages of the transactions and the cursors on them. -/
structure Pages (s : TransactionDB α) : Prop where
  read : s.readTxn < s.pageCount
  pos : 0 < (s.page s.readTxn).txnId
  max : (s.page s.readTxn).txnId ≤ Serial.MAX_VALUE
  refs : s.RefsOk
  cursor : ∀ c cur, s.cursor? c = some cur → s.CursorInv c cur
  state : (∃ n, s.Closed n) ∨
    ∃ c p cur, s.Open c p cur ∧ (s.page p).txnId = Serial.add (s.page s.readTxn).txnId 1

/-- The log of a transaction that has been started with `id`. -/
structure Logged (s : TransactionDB α) (id : Nat) : Prop where
  buf : s.prepared = false → ∃ rs, s.buf = .begin id s.number :: rs ∧ ∀ r ∈ rs, r = .op ∨ r = .prepare
  file : s.prepared = true → s.hasRecords = true →
    (LogParser.parse (s.file s.activeLog)).current = some (id, s.number) ∧
      (LogParser.parse (s.file s.activeLog)).prepared = true

/-- What the log and the database have committed. -/
structure Log (s : TransactionDB α) : Prop where
  going : ∀ i, (LogParser.parse (s.file i)).stopped = false
  parsed : ∀ i, ∀ x ∈ (LogParser.parse (s.file i)).committed, x.2 ∈ s.succeeded
  committed : ∀ n ∈ s.committed, n ∈ s.succeeded
  number : ∀ n ∈ s.succeeded, n ≤ s.number
  fresh : s.txnCursorId ≠ none → s.number ∉ s.succeeded
  logged : ∀ c p cur, s.owned c = some (p, cur) → cur.useWal = true → s.Logged (s.page p).txnId

structure Inv (s : TransactionDB α) : Prop where
  pages : s.Pages
  log : s.Log

/-- What recovery makes transactions of: they are committed in a file, with an id that is newer. -/
def replayed (s : TransactionDB α) : List Nat :=
  (((LogParser.parse (s.file false)).committed ++ (LogParser.parse (s.file true)).committed).filter
    fun x => !Serial.le x.1 (s.page s.readTxn).txnId).map (·.2)

/-- What a call that fails has to leave alone. -/
def control (s : TransactionDB α) :=
  (s.txnLock, s.txnCursorId, s.nextTxnPage, s.activeTxn, fun p => (s.page p).refs)

/-- The transaction goes on, and it can be rolled back. -/
structure GoesOn (s : TransactionDB α) (c : Nat) : Prop where
  isOpen : ∃ p cur, s.Open c p cur
  refs : s.RefsOk
  closed : ∃ n, (s.rollback c).Closed n ∧
    ((s.rollback c).page n).root = (s.page s.readTxn).root
  refs_rollback : (s.rollback c).RefsOk
  map_rollback : ((s.rollback c).page (s.rollback c).readTxn).root = (s.page s.readTxn).root

/-- A call of the cursor `c` has failed, the database can be used as if nothing had happened. -/
structure Usable (s s' : TransactionDB α) (c : Nat) : Prop where
  map : (s'.page s'.readTxn).root = (s.page s.readTxn).root
  control : s'.control = s.control ∨ s'.GoesOn c
  failed : ∀ n, n ∈ s'.committed ∨ n ∈ s'.replayed → n ∈ s.succeeded

/-- The call fails before anything has been done that another one does not undo: not in the walk,
and not once the record COMMIT is in the log or the transactions have been switched. -/
def Harmless (s : TransactionDB α) : FailedCall → Prop
  | .openWal _ | .prepareWrite _ | .prepareSync _ | .prepareClone _ | .prepareFlush _
  | .commitWrite _ => True
  | .commitSubmit _ => s.hasRecords = false
  | .startFree _ _ _ | .commitSync _ | .commitClone _ | .commitFlush _ => False

instance (s : TransactionDB α) (call : FailedCall) : Decidable (s.Harmless call) :=
  match call with
  | .openWal _ | .prepareWrite _ | .prepareSync _ | .prepareClone _ | .prepareFlush _
  | .commitWrite _ => inferInstanceAs (Decidable True)
  | .commitSubmit _ => inferInstanceAs (Decidable (_ = _))
  | .startFree _ _ _ | .commitSync _ | .commitClone _ | .commitFlush _ =>
    inferInstanceAs (Decidable False)

/-- Calls fail where it is harmless, and no transaction writes its first record after it is
prepared. -/
def StepOk (s : TransactionDB α) : TransactionEvent α → Prop
  | .fail call => s.Harmless call
  | .write c _ => (s.owned c).elim True fun o =>
      o.2.useWal = true → s.prepared = true → s.hasRecords = true
  | _ => True

/-- Every step of a run meets the condition in the state it finds. -/
def RunOk (s : TransactionDB α) : List (TransactionEvent α) → Prop
  | [] => True
  | e :: es => s.StepOk e ∧ ((s.step e).elim True fun s' => RunOk s' es)

section Count

variable {s : TransactionDB α} {c p : Nat} {cur : TxnCursor}

theorem cursor?_eq_some : s.cursor? c = some cur ↔ s.cursors[c]? = some (some cur) := by
  rw [cursor?, Option.join_eq_some_iff]

theorem cursor?_set {o : Option TxnCursor} (hc : s.cursor? c = some cur) (c' : Nat) :
    (s.setCursor c o).cursor? c' = if c' = c then o else s.cursor? c' := by
  rw [cursor?_eq_some] at hc
  obtain ⟨hlt, -⟩ := List.getElem?_eq_some_iff.mp hc
  rw [cursor?, setCursor]
  simp only [List.getElem?_set]
  by_cases heq : c = c'
  . rw [if_pos heq, if_pos (heq ▸ hlt), if_pos heq.symm]
    rfl
  . rw [if_neg heq, if_neg (Ne.symm heq)]
    rfl

/-- How the readers of a page change with one cursor. -/
theorem countP_set (hc : s.cursor? c = some cur) (o : Option TxnCursor) (q : Nat) :
    (s.cursors.set c o).countP (reads q) + (if cur.txn = q then 1 else 0) =
      s.cursors.countP (reads q) + (if reads q o then 1 else 0) := by
  rw [cursor?_eq_some] at hc
  obtain ⟨hlt, hget⟩ := List.getElem?_eq_some_iff.mp hc
  rw [List.countP_set hlt, hget]
  have hreads : (if reads q (some cur) = true then 1 else 0) = if cur.txn = q then 1 else 0 := by
    simp [reads]
  rw [hreads]
  have hle : (if cur.txn = q then 1 else 0) ≤ s.cursors.countP (reads q) := by
    split
    next heq =>
      refine List.countP_pos_iff.mpr ⟨some cur, ?_, by simp [reads, heq]⟩
      rw [← hget]
      exact List.getElem_mem hlt
    . exact Nat.zero_le _
  omega

theorem ofNat_sub_one {n m : Nat} (h : m + 1 = n) : UInt32.ofNat n - 1 = UInt32.ofNat m := by
  rw [← h, UInt32.ofNat_add]
  exact UInt32.add_sub_cancel _ _

theorem ofNat_add_one {n m : Nat} (h : m = n + 1) : UInt32.ofNat n + 1 = UInt32.ofNat m := by
  rw [h, UInt32.ofNat_add]
  rfl

/-- A cursor that is not moved. -/
theorem RefsOk.setCursor (h : s.RefsOk) (hc : s.cursor? c = some cur) {cur' : TxnCursor}
    (htxn : cur'.txn = cur.txn) : (s.setCursor c (some cur')).RefsOk := by
  intro q
  have hcount := countP_set hc (some cur') q
  simp only [reads, Option.any_some, htxn, decide_eq_true_eq, Nat.add_right_cancel_iff] at hcount
  change (s.page q).refs = UInt32.ofNat ((s.cursors.set c (some cur')).countP (reads q))
  rw [hcount]
  exact h q

theorem page_setRefs (refs : UInt32) (q : Nat) :
    (s.setRefs p refs).page q = if q = p then { s.page p with refs } else s.page q := by
  rw [setRefs, setPage]
  simp only [Function.update_apply]

theorem refs_setTxn (hne : cur.txn ≠ p) (q : Nat) : ((s.setTxn c cur p).page q).refs =
    if q = p then (s.page p).refs + 1 else if q = cur.txn then (s.page q).refs - 1
      else (s.page q).refs := by
  rw [setTxn]
  simp only [setCursor, page_setRefs]
  by_cases hp : q = p
  . simp [hp, Ne.symm hne]
  . by_cases hq : q = cur.txn
    . simp [hq, hne]
    . simp [hp, hq]

/-- Only the counts are changed when a cursor is moved. -/
theorem page_setTxn (q : Nat) : ((s.setTxn c cur p).page q).root = (s.page q).root ∧
    ((s.setTxn c cur p).page q).txnId = (s.page q).txnId := by
  rw [setTxn]
  simp only [setCursor, page_setRefs]
  by_cases hp : q = p
  . by_cases hq : p = cur.txn
    . simp [hp, hq]
    . simp [hp, hq]
  . by_cases hq : q = cur.txn
    . rw [if_neg hp, if_pos hq, hq]
      exact ⟨rfl, rfl⟩
    . rw [if_neg hp, if_neg hq]
      exact ⟨rfl, rfl⟩

/-- `_set_txn` moves a count. -/
theorem RefsOk.setTxn (h : s.RefsOk) (hc : s.cursor? c = some cur) {cur' : TxnCursor}
    (htxn : cur'.txn = cur.txn) (hne : cur.txn ≠ p) : (s.setTxn c cur' p).RefsOk := by
  intro q
  rw [refs_setTxn (htxn ▸ hne), htxn]
  have hcount := countP_set hc (some { cur' with txn := p }) q
  simp only [reads, Option.any_some, decide_eq_true_eq] at hcount
  have hset : (s.setTxn c cur' p).cursors = s.cursors.set c (some { cur' with txn := p }) := rfl
  rw [hset]
  split
  next hp =>
    rw [hp] at hcount ⊢
    rw [if_neg hne, if_pos rfl] at hcount
    rw [h p]
    exact ofNat_add_one hcount
  next hp =>
    rw [if_neg (Ne.symm hp)] at hcount
    split
    next hq =>
      rw [if_pos hq.symm] at hcount
      rw [h q]
      exact ofNat_sub_one hcount
    next hq =>
      rw [if_neg (Ne.symm hq)] at hcount
      rw [h q]
      exact congrArg _ hcount.symm

end Count

/-- What pages and cursors are made of, apart from the pages themselves. -/
def core (s : TransactionDB α) :=
  (s.pageCount, s.readTxn, s.preparedTxn, s.nextTxnPage, s.txnLock, s.txnCursorId, s.activeTxn,
    s.cursors)

section Same

variable {s s' : TransactionDB α} (hcore : s'.core = s.core)

include hcore

theorem cursor?_of_core (c : Nat) : s'.cursor? c = s.cursor? c := by
  simp only [core, Prod.mk.injEq] at hcore
  rw [cursor?, cursor?, hcore.2.2.2.2.2.2.2]

theorem owned_of_core (c : Nat) : s'.owned c = s.owned c := by
  have hcursor := cursor?_of_core hcore c
  simp only [core, Prod.mk.injEq] at hcore
  rw [owned, owned, hcursor, hcore.2.2.2.2.2.1, hcore.2.2.2.2.2.2.1]

theorem Closed.of_core {n : Nat} (h : s.Closed n) : s'.Closed n := by
  simp only [core, Prod.mk.injEq] at hcore
  obtain ⟨hcount, hread, hprepared, hnext, hlock, hid, hactive, -⟩ := hcore
  exact ⟨hlock.trans h.txnLock, hid.trans h.txnCursorId, hactive.trans h.activeTxn,
    by rw [hprepared, hread, h.preparedTxn], hnext.trans h.nextTxnPage, hcount ▸ h.lt,
    hread ▸ h.ne⟩

theorem Open.of_core {c p : Nat} {cur : TxnCursor} (h : s.Open c p cur) : s'.Open c p cur := by
  have hcursor := (cursor?_of_core hcore c).trans h.cursor
  simp only [core, Prod.mk.injEq] at hcore
  obtain ⟨hcount, hread, hprepared, hnext, hlock, hid, hactive, -⟩ := hcore
  refine ⟨hlock.trans h.txnLock, hid.trans h.txnCursorId, hactive.trans h.activeTxn, hcursor,
    h.txn, hread ▸ h.ne, ?_⟩
  rw [hprepared, hnext, hread, hcount]
  exact h.next

theorem CursorInv.of_core {c : Nat} {cur : TxnCursor} (h : s.CursorInv c cur) :
    s'.CursorInv c cur := by
  simp only [core, Prod.mk.injEq] at hcore
  obtain ⟨hcount, hread, hprepared, hnext, hlock, hid, hactive, -⟩ := hcore
  refine ⟨hcount ▸ h.lt, hnext ▸ h.next, ?_⟩
  rw [hactive, hid]
  exact h.active

/-- A step that leaves the counts and the ids of the pages. -/
theorem Pages.of_core (h : s.Pages)
    (hpage : ∀ q, (s'.page q).refs = (s.page q).refs ∧ (s'.page q).txnId = (s.page q).txnId) :
    s'.Pages := by
  have hread : s'.readTxn = s.readTxn := by
    simp only [core, Prod.mk.injEq] at hcore
    exact hcore.2.1
  have hcount : s'.pageCount = s.pageCount := by
    simp only [core, Prod.mk.injEq] at hcore
    exact hcore.1
  have hcursors : s'.cursors = s.cursors := by
    simp only [core, Prod.mk.injEq] at hcore
    exact hcore.2.2.2.2.2.2.2
  refine ⟨?_, ?_, ?_, ?_, ?_, ?_⟩
  . rw [hread, hcount]
    exact h.read
  . rw [hread, (hpage _).2]
    exact h.pos
  . rw [hread, (hpage _).2]
    exact h.max
  . intro q
    rw [(hpage q).1, hcursors]
    exact h.refs q
  . intro c cur hc
    rw [cursor?_of_core hcore] at hc
    exact (h.cursor c cur hc).of_core hcore
  . rcases h.state with ⟨n, hclosed⟩ | ⟨c, p, cur, hopen, hid⟩
    . exact Or.inl ⟨n, hclosed.of_core hcore⟩
    . refine Or.inr ⟨c, p, cur, hopen.of_core hcore, ?_⟩
      rw [hread, (hpage _).2, (hpage _).2]
      exact hid

end Same

section Pages

variable {s : TransactionDB α}

theorem Closed.not_owned {n : Nat} (h : s.Closed n) (c : Nat) : s.owned c = none := by
  rw [owned, h.txnCursorId, if_neg (by simp)]

theorem Open.owned_eq {c p : Nat} {cur : TxnCursor} (h : s.Open c p cur) :
    s.owned c = some (p, cur) := by
  rw [owned, if_pos h.txnCursorId, h.activeTxn, h.cursor]
  rfl

/-- The cursor of the transaction. -/
theorem Pages.open_of_owned (h : s.Pages) {c : Nat} {o : Nat × TxnCursor}
    (ho : s.owned c = some o) : s.Open c o.1 o.2 ∧
      (s.page o.1).txnId = Serial.add (s.page s.readTxn).txnId 1 := by
  rcases h.state with ⟨n, hclosed⟩ | ⟨c', p, cur, hopen, hid⟩
  . rw [hclosed.not_owned c] at ho
    cases ho
  . have hcc : c' = c := by
      rw [owned] at ho
      split at ho
      next hc =>
        rw [hopen.txnCursorId, Option.some.injEq] at hc
        exact hc
      . cases ho
    rw [hcc] at hopen
    rw [hopen.owned_eq, Option.some.injEq] at ho
    rw [← ho]
    exact ⟨hopen, hid⟩

/-- Nobody reads a page that has no cursor. -/
theorem countP_eq_zero {q : Nat} (h : ∀ c cur, s.cursor? c = some cur → cur.txn ≠ q) :
    s.cursors.countP (reads q) = 0 := by
  rw [List.countP_eq_zero]
  intro o ho
  obtain ⟨c, hc⟩ := List.mem_iff_getElem?.mp ho
  cases o with
  | none => simp [reads]
  | some cur =>
    have := h c cur (cursor?_eq_some.mpr hc)
    simp [reads, this]

theorem Pages.createCursor (h : s.Pages) : s.createCursor.Pages := by
  have hpage : ∀ q, (s.createCursor.page q).txnId = (s.page q).txnId := by
    intro q
    rw [TransactionDB.createCursor]
    simp only [page_setRefs]
    split
    next hq => rw [hq]
    . rfl
  have hcursor : ∀ c cur, s.createCursor.cursor? c = some cur →
      s.cursor? c = some cur ∨ cur = ⟨s.readTxn, false⟩ := by
    intro c cur hc
    rw [cursor?_eq_some, TransactionDB.createCursor] at hc
    change (s.cursors ++ [some ⟨s.readTxn, false⟩])[c]? = some (some cur) at hc
    rw [List.getElem?_append] at hc
    split at hc
    . exact Or.inl (cursor?_eq_some.mpr hc)
    . rw [List.getElem?_singleton] at hc
      split at hc
      . rw [Option.some.injEq, Option.some.injEq] at hc
        exact Or.inr hc.symm
      . cases hc
  refine ⟨h.read, ?_, ?_, ?_, ?_, ?_⟩
  . exact (hpage _) ▸ h.pos
  . exact (hpage _) ▸ h.max
  . intro q
    have hcount : s.createCursor.cursors = s.cursors ++ [some ⟨s.readTxn, false⟩] := rfl
    rw [hcount, List.countP_append, List.countP_singleton, TransactionDB.createCursor]
    simp only [page_setRefs, reads, Option.any_some, decide_eq_true_eq]
    by_cases hq : q = s.readTxn
    . rw [if_pos hq, if_pos hq.symm, hq, h.refs]
      exact ofNat_add_one rfl
    . rw [if_neg hq, if_neg (Ne.symm hq), h.refs]
      rfl
  . intro c cur hc
    rcases hcursor c cur hc with hold | hnew
    . exact ⟨(h.cursor c cur hold).lt, (h.cursor c cur hold).next, (h.cursor c cur hold).active⟩
    . rw [hnew]
      refine ⟨h.read, ?_, ?_⟩
      . intro hnext
        rcases h.state with ⟨n, hclosed⟩ | ⟨c', p, cur', hopen, -⟩
        . have := hclosed.nextTxnPage.symm.trans hnext
          exact hclosed.ne (Option.some.inj this)
        . rcases hopen.next with ⟨-, hnone⟩ | ⟨-, n, hn, -, -, hne⟩
          . have := hnone.symm.trans hnext
            cases this
          . have := hn.symm.trans hnext
            exact hne (Option.some.inj this)
      . intro hactive
        rcases h.state with ⟨n, hclosed⟩ | ⟨c', p, cur', hopen, -⟩
        . have := hclosed.activeTxn.symm.trans hactive
          cases this
        . have := hopen.activeTxn.symm.trans hactive
          exact absurd (Option.some.inj this) hopen.ne
  . rcases h.state with ⟨n, hclosed⟩ | ⟨c', p, cur', hopen, hid⟩
    . exact Or.inl ⟨n, hclosed.txnLock, hclosed.txnCursorId, hclosed.activeTxn,
        hclosed.preparedTxn, hclosed.nextTxnPage, hclosed.lt, hclosed.ne⟩
    . refine Or.inr ⟨c', p, cur', ⟨hopen.txnLock, hopen.txnCursorId, hopen.activeTxn, ?_,
        hopen.txn, hopen.ne, hopen.next⟩, ?_⟩
      . have hold := cursor?_eq_some.mp hopen.cursor
        obtain ⟨hlt, -⟩ := List.getElem?_eq_some_iff.mp hold
        rw [cursor?_eq_some, TransactionDB.createCursor]
        change (s.cursors ++ [some ⟨s.readTxn, false⟩])[c']? = _
        rw [List.getElem?_append_left hlt]
        exact hold
      . rw [hpage]
        exact hid.trans (congrArg (Serial.add · 1) (hpage s.readTxn).symm)

/-- The committed transaction is on no other page of interest. -/
theorem Pages.read_ne (h : s.Pages) :
    s.nextTxnPage ≠ some s.readTxn ∧ s.activeTxn ≠ some s.readTxn := by
  rcases h.state with ⟨n, hclosed⟩ | ⟨c, p, cur, hopen, -⟩
  . rw [hclosed.nextTxnPage, hclosed.activeTxn]
    exact ⟨fun heq => hclosed.ne (Option.some.inj heq), by simp⟩
  . refine ⟨?_, ?_⟩
    . rcases hopen.next with ⟨-, hnone⟩ | ⟨-, n, hn, -, -, hne⟩
      . rw [hnone]
        simp
      . rw [hn]
        exact fun heq => hne (Option.some.inj heq)
    . rw [hopen.activeTxn]
      exact fun heq => hopen.ne (Option.some.inj heq)

theorem Pages.update (h : s.Pages) {c : Nat} {cur : TxnCursor} (hc : s.cursor? c = some cur) :
    (s.update c cur).Pages := by
  unfold TransactionDB.update
  split
  . exact h
  next hne =>
    split
    next hlt =>
      have hroot : ∀ q, ((s.setTxn c cur s.readTxn).page q).txnId = (s.page q).txnId :=
        fun q => (page_setTxn q).2
      have hcursors : ∀ c', (s.setTxn c cur s.readTxn).cursor? c' =
          if c' = c then some { cur with txn := s.readTxn } else s.cursor? c' :=
        fun c' => cursor?_set hc c'
      refine ⟨h.read, ?_, ?_, h.refs.setTxn hc rfl (Ne.symm hne), ?_, ?_⟩
      . exact (hroot s.readTxn).symm ▸ h.pos
      . exact (hroot s.readTxn).symm ▸ h.max
      . intro c' x hx
        rw [hcursors] at hx
        split at hx
        . rw [← Option.some.inj hx]
          exact ⟨h.read, h.read_ne.1, fun hactive => absurd hactive h.read_ne.2⟩
        . have hxi := h.cursor c' x hx
          exact ⟨hxi.lt, hxi.next, hxi.active⟩
      . rcases h.state with ⟨n, hclosed⟩ | ⟨c', p, own, hopen, hid⟩
        . exact Or.inl ⟨n, hclosed.txnLock, hclosed.txnCursorId, hclosed.activeTxn,
            hclosed.preparedTxn, hclosed.nextTxnPage, hclosed.lt, hclosed.ne⟩
        . -- the transaction of the cursor is newer than the committed one
          have hcc : c' ≠ c := by
            intro heq
            have hown : own = cur := by
              have := hopen.cursor
              rw [heq, hc] at this
              exact (Option.some.inj this).symm
            rw [← hown, hopen.txn, hid, Serial.not_add_one_lt h.pos h.max] at hlt
            cases hlt
          refine Or.inr ⟨c', p, own, ⟨hopen.txnLock, hopen.txnCursorId, hopen.activeTxn, ?_,
            hopen.txn, hopen.ne, hopen.next⟩, ?_⟩
          . rw [hcursors, if_neg hcc]
            exact hopen.cursor
          . rw [hroot]
            exact hid.trans (congrArg (Serial.add · 1) (hroot s.readTxn).symm)
    . exact h

/-- The page of the transaction after the walk. -/
theorem page_endWalk {c p : Nat} (hne : p ≠ s.readTxn) (q : Nat) :
    (((s.lockTxn c p).endWalk p).page q).refs = (s.page q).refs ∧
      (((s.lockTxn c p).endWalk p).page q).root = (s.page q).root ∧
      (((s.lockTxn c p).endWalk p).page q).txnId =
        if q = p then Serial.add (s.page s.readTxn).txnId 1 else (s.page q).txnId := by
  rw [endWalk, lockTxn]
  simp only [setRefs, setPage, Function.update_apply]
  by_cases hq : q = s.readTxn
  . have hqp : s.readTxn ≠ p := Ne.symm hne
    rw [hq]
    simp only [hqp, ↓reduceIte, and_true]
    exact UInt32.add_sub_cancel _ _
  . by_cases hp : q = p
    . simp [hp, hne]
    . simp [hq, hp]

theorem Pages.startTxn (h : s.Pages) {c n : Nat} {cur : TxnCursor} (hc : s.cursor? c = some cur)
    (hclosed : s.Closed n) (useWal : Bool) :
    (s.startTxn c cur useWal n).Pages ∧
      (s.startTxn c cur useWal n).Open c n { cur with txn := n, useWal } := by
  have hcur := h.cursor c cur hc
  have htxn : cur.txn ≠ n := fun heq => hcur.next (heq ▸ hclosed.nextTxnPage)
  let s₁ : TransactionDB α := { s with walOpen := s.walOpen || useWal }
  let s₂ := (s₁.lockTxn c n).endWalk n
  let s₃ := s₂.setTxn c { cur with useWal } n
  have hpage₂ : ∀ q, (s₂.page q).refs = (s.page q).refs ∧ (s₂.page q).root = (s.page q).root ∧
      (s₂.page q).txnId =
        if q = n then Serial.add (s.page s.readTxn).txnId 1 else (s.page q).txnId :=
    page_endWalk (s := s₁) hclosed.ne
  have hrefs₂ : s₂.RefsOk := by
    intro q
    rw [(hpage₂ q).1]
    exact h.refs q
  have hc₂ : s₂.cursor? c = some cur := hc
  have hcursors : ∀ c', s₃.cursor? c' =
      if c' = c then some { cur with txn := n, useWal } else s.cursor? c' :=
    fun c' => cursor?_set hc₂ c'
  have hid : ∀ q, (s₃.page q).txnId =
      if q = n then Serial.add (s.page s.readTxn).txnId 1 else (s.page q).txnId :=
    fun q => (page_setTxn q).2.trans (hpage₂ q).2.2
  have hread : (s₃.page s.readTxn).txnId = (s.page s.readTxn).txnId := by
    rw [hid, if_neg (Ne.symm hclosed.ne)]
  have hopen : s₃.Open c n { cur with txn := n, useWal } := by
    refine ⟨rfl, rfl, rfl, ?_, rfl, hclosed.ne, Or.inl ⟨hclosed.preparedTxn, rfl⟩⟩
    rw [hcursors, if_pos rfl]
  have hpages : s₃.Pages := by
    refine ⟨h.read, ?_, ?_, hrefs₂.setTxn hc₂ rfl htxn, ?_, Or.inr ⟨c, n, _, hopen, ?_⟩⟩
    . change 0 < (s₃.page s.readTxn).txnId
      rw [hread]
      exact h.pos
    . change (s₃.page s.readTxn).txnId ≤ _
      rw [hread]
      exact h.max
    . intro c' x hx
      rw [hcursors] at hx
      split at hx
      next heq =>
        rw [← Option.some.inj hx, heq]
        exact ⟨hclosed.lt, by rintro ⟨⟩, fun _ => rfl⟩
      . have hxi := h.cursor c' x hx
        refine ⟨hxi.lt, by rintro ⟨⟩, ?_⟩
        intro hactive
        have hn : some n = some x.txn := hactive
        rw [← hclosed.nextTxnPage] at hn
        exact absurd hn hxi.next
    . change (s₃.page n).txnId = Serial.add (s₃.page s.readTxn).txnId 1
      rw [hread, hid, if_pos rfl]
  have hcore : (s.startTxn c cur useWal n).core = s₃.core := by
    rw [TransactionDB.startTxn]
    cases useWal <;> rfl
  have hpage : ∀ q, ((s.startTxn c cur useWal n).page q) = s₃.page q := by
    intro q
    rw [TransactionDB.startTxn]
    cases useWal <;> rfl
  refine ⟨hpages.of_core hcore fun q => ?_, hopen.of_core hcore⟩
  rw [hpage]
  exact ⟨rfl, rfl⟩

theorem Pages.write (h : s.Pages) (cur : TxnCursor) (root : α) : (s.write cur root).Pages := by
  have hcore : (s.write cur root).core = s.core := by
    rw [TransactionDB.write]
    cases cur.useWal <;> rfl
  apply h.of_core hcore
  intro q
  have hpage : (s.write cur root).page =
      (s.setPage cur.txn { s.page cur.txn with root }).page := by
    rw [TransactionDB.write]
    cases cur.useWal <;> rfl
  rw [hpage, setPage]
  simp only [Function.update_apply]
  split
  next hq =>
    rw [hq]
    exact ⟨rfl, rfl⟩
  . exact ⟨rfl, rfl⟩

/-- The log is written. -/
theorem core_walPrepare (s : TransactionDB α) :
    s.walPrepare.core = s.core ∧ s.walPrepare.page = s.page := by
  unfold walPrepare
  split
  . exact ⟨rfl, rfl⟩
  . split
    . exact ⟨rfl, rfl⟩
    . exact ⟨rfl, rfl⟩

theorem core_walCommitted (s : TransactionDB α) (cur : TxnCursor) :
    (s.walCommitted cur).core = s.core ∧ (s.walCommitted cur).page = s.page := by
  obtain ⟨hcore, hpage⟩ := core_walPrepare s
  unfold walCommitted
  split
  . unfold walCommit
    split
    . exact ⟨hcore, hpage⟩
    . exact ⟨hcore, hpage⟩
  . exact ⟨rfl, rfl⟩

theorem Pages.of_log {s' : TransactionDB α} (h : s.Pages) (hcore : s'.core = s.core)
    (hpage : s'.page = s.page) : s'.Pages :=
  h.of_core hcore fun q => by rw [hpage]; exact ⟨rfl, rfl⟩

/-- What `prepare_commit` of the database leaves as it is. -/
theorem same_prepareTxn (s : TransactionDB α) (p : Nat) :
    (s.prepareTxn p).readTxn = s.readTxn ∧
      ((s.prepareTxn p).file, (s.prepareTxn p).activeLog, (s.prepareTxn p).buf,
        (s.prepareTxn p).hasRecords, (s.prepareTxn p).prepared) =
          (s.file, s.activeLog, s.buf, s.hasRecords, s.prepared) ∧
      ((s.prepareTxn p).number, (s.prepareTxn p).committed, (s.prepareTxn p).succeeded) =
        (s.number, s.committed, s.succeeded) := by
  unfold TransactionDB.prepareTxn
  split
  . exact ⟨rfl, rfl, rfl⟩
  . exact ⟨rfl, rfl, rfl⟩

/-- The page of the next transaction has no readers. -/
theorem Pages.prepareTxn (h : s.Pages) {c p : Nat} {cur : TxnCursor} (hopen : s.Open c p cur)
    (hid : (s.page p).txnId = Serial.add (s.page s.readTxn).txnId 1) :
    (s.prepareTxn p).Pages ∧ (s.prepareTxn p).Open c p cur ∧
      (s.prepareTxn p).preparedTxn = p ∧
      ∀ q, q < s.pageCount → (s.prepareTxn p).page q = s.page q := by
  have hp : p < s.pageCount := hopen.txn ▸ (h.cursor c cur hopen.cursor).lt
  unfold TransactionDB.prepareTxn
  rcases hopen.next with ⟨hread, hnone⟩ | ⟨hprepared, hnext⟩
  . rw [if_neg (fun hne => hne hread)]
    let page' := Function.update s.page s.pageCount { s.page p with refs := 0 }
    have hpage : ∀ q, q < s.pageCount → page' q = s.page q := by
      intro q hq
      simp only [page']
      rw [Function.update_apply, if_neg (Nat.ne_of_lt hq)]
    have hopen' : Open { s.setPage s.pageCount { s.page p with refs := 0 } with
        pageCount := s.pageCount + 1, nextTxnPage := some s.pageCount, preparedTxn := p } c p cur :=
      ⟨hopen.txnLock, hopen.txnCursorId, hopen.activeTxn, hopen.cursor, hopen.txn, hopen.ne,
        Or.inr ⟨rfl, s.pageCount, rfl, Nat.lt_succ_self _, (Nat.ne_of_lt hp).symm,
          (Nat.ne_of_lt h.read).symm⟩⟩
    refine ⟨⟨Nat.lt_succ_of_lt h.read, ?_, ?_, ?_, ?_, Or.inr ⟨c, p, cur, hopen', ?_⟩⟩, hopen', rfl,
      hpage⟩
    . change 0 < (page' s.readTxn).txnId
      rw [hpage _ h.read]
      exact h.pos
    . change (page' s.readTxn).txnId ≤ _
      rw [hpage _ h.read]
      exact h.max
    . intro q
      change (page' q).refs = _
      simp only [page', Function.update_apply]
      split
      next hq =>
        have hzero : s.cursors.countP (reads q) = 0 := by
          apply countP_eq_zero
          intro c' x hx heq
          have := (h.cursor c' x hx).lt
          omega
        have hcursors : s.cursors.countP (reads q) = 0 := hzero
        rw [show (setPage s s.pageCount { s.page p with refs := 0 }).cursors = s.cursors from rfl,
          hcursors]
        rfl
      . exact h.refs q
    . intro c' x hx
      have hxi := h.cursor c' x hx
      refine ⟨Nat.lt_succ_of_lt hxi.lt, ?_, hxi.active⟩
      intro heq
      have hlt := hxi.lt
      rw [← Option.some.inj heq] at hlt
      exact absurd hlt (Nat.lt_irrefl _)
    . change (page' p).txnId = Serial.add (page' s.readTxn).txnId 1
      rw [hpage _ hp, hpage _ h.read]
      exact hid
  . rw [if_pos (by rw [hprepared]; exact hopen.ne)]
    exact ⟨h, hopen, hprepared, fun _ _ => rfl⟩

/-- The prepared transaction is the committed one. -/
theorem Pages.switchTxn (h : s.Pages) {c p : Nat} {cur : TxnCursor} (hopen : s.Open c p cur)
    (hid : (s.page p).txnId = Serial.add (s.page s.readTxn).txnId 1)
    (hprepared : s.preparedTxn = p) : s.switchTxn.endTransaction.Pages := by
  have hp : p < s.pageCount := hopen.txn ▸ (h.cursor c cur hopen.cursor).lt
  obtain ⟨n, hn, hlt, hne, -⟩ : ∃ n, s.nextTxnPage = some n ∧ n < s.pageCount ∧ n ≠ p ∧
      n ≠ s.readTxn := by
    rcases hopen.next with ⟨hread, -⟩ | ⟨-, hnext⟩
    . exact absurd (hprepared.symm.trans hread) hopen.ne
    . exact hnext
  refine ⟨?_, ?_, ?_, h.refs, ?_, Or.inl ⟨n, rfl, rfl, rfl, rfl, hn, hlt, ?_⟩⟩
  . change s.preparedTxn < s.pageCount
    rw [hprepared]
    exact hp
  . change 0 < (s.page s.preparedTxn).txnId
    rw [hprepared, hid]
    exact Serial.add_one_pos _
  . change (s.page s.preparedTxn).txnId ≤ _
    rw [hprepared, hid]
    exact Serial.add_one_le _
  . intro c' x hx
    have hxi := h.cursor c' x hx
    exact ⟨hxi.lt, hxi.next, by rintro ⟨⟩⟩
  . change n ≠ s.preparedTxn
    rw [hprepared]
    exact hne

/-- The log of a cursor that rolls back is dropped. -/
def dropLog (s : TransactionDB α) (cur : TxnCursor) : TransactionDB α :=
  if cur.useWal then { s with buf := [], hasRecords := false, prepared := false } else s

theorem core_dropLog (s : TransactionDB α) (cur : TxnCursor) :
    (s.dropLog cur).core = s.core ∧ (s.dropLog cur).page = s.page := by
  unfold dropLog
  split
  . exact ⟨rfl, rfl⟩
  . exact ⟨rfl, rfl⟩

/-- The cursor goes back to the committed transaction, its page is for the next one. -/
theorem Pages.rollback (h : s.Pages) {c p : Nat} {cur : TxnCursor} (hopen : s.Open c p cur) :
    (s.rollback c).Pages ∧ (s.rollback c).Closed p ∧
      ((s.rollback c).page p).root = (s.page s.readTxn).root ∧
      (s.rollback c).readTxn = s.readTxn ∧
      ((s.rollback c).page s.readTxn).root = (s.page s.readTxn).root := by
  have hp : p < s.pageCount := hopen.txn ▸ (h.cursor c cur hopen.cursor).lt
  let s₁ := s.dropLog cur
  obtain ⟨hcore₁, hpage₁⟩ := core_dropLog s cur
  have hread₁ : s₁.readTxn = s.readTxn := by
    simp only [core, Prod.mk.injEq] at hcore₁
    exact hcore₁.2.1
  have hcount₁ : s₁.pageCount = s.pageCount := by
    simp only [core, Prod.mk.injEq] at hcore₁
    exact hcore₁.1
  have hcursors₁ : s₁.cursors = s.cursors := by
    simp only [core, Prod.mk.injEq] at hcore₁
    exact hcore₁.2.2.2.2.2.2.2
  have hopen₁ : s₁.Open c p cur := hopen.of_core hcore₁
  let s₂ := s₁.rollbackTxn p
  have heq : s.rollback c =
      (s₂.setRefs s₂.readTxn ((s₂.page s₂.readTxn).refs + 1)).setCursor c
        (some { cur with txn := s₂.readTxn }) := by
    rw [TransactionDB.rollback, hopen.owned_eq]
    rfl
  have hread₂ : s₂.readTxn = s.readTxn := hread₁
  have hpage : ∀ q, (s.rollback c).page q =
      if q = p then { s.page s.readTxn with refs := 0 }
      else if q = s.readTxn then { s.page q with refs := (s.page q).refs + 1 } else s.page q := by
    intro q
    rw [heq]
    simp only [setCursor, page_setRefs, hread₂]
    have hpage₂ : ∀ q, s₂.page q =
        if q = p then { s.page s.readTxn with refs := 0 } else s.page q := by
      intro q
      change Function.update s₁.page p { s₁.page s₁.readTxn with refs := 0 } q = _
      rw [Function.update_apply, hpage₁, hread₁]
    by_cases hq : q = s.readTxn
    . rw [if_pos hq, hq, if_neg (Ne.symm hopen.ne), if_pos rfl, hpage₂,
        if_neg (Ne.symm hopen.ne)]
    . rw [if_neg hq, if_neg hq, hpage₂]
  have hread : (s.rollback c).readTxn = s.readTxn := by
    rw [heq]
    exact hread₂
  have hcursors : (s.rollback c).cursors = s.cursors.set c (some { cur with txn := s.readTxn }) := by
    rw [heq]
    change s₁.cursors.set c (some { cur with txn := s₁.readTxn }) = _
    rw [hcursors₁, hread₁]
  have hcursor : ∀ c', (s.rollback c).cursor? c' =
      if c' = c then some { cur with txn := s.readTxn } else s.cursor? c' := by
    intro c'
    rw [cursor?, hcursors]
    exact cursor?_set hopen.cursor c'
  have hcount : (s.rollback c).pageCount = s.pageCount := by
    rw [heq]
    exact hcount₁
  have hnext : (s.rollback c).nextTxnPage = some p := by
    rw [heq]
    rfl
  have hactive : (s.rollback c).activeTxn = none := by
    rw [heq]
    rfl
  have hclosed : (s.rollback c).Closed p := by
    refine ⟨?_, ?_, hactive, ?_, hnext, ?_, ?_⟩
    . rw [heq]
      rfl
    . rw [heq]
      rfl
    . rw [heq]
      rfl
    . rw [hcount]
      exact hp
    . rw [hread]
      exact hopen.ne
  have hownread : cur.txn ≠ s.readTxn := hopen.txn ▸ hopen.ne
  refine ⟨⟨?_, ?_, ?_, ?_, ?_, Or.inl ⟨p, hclosed⟩⟩, hclosed, ?_, hread, ?_⟩
  . rw [hread, hcount]
    exact h.read
  . rw [hread, hpage, if_neg (Ne.symm hopen.ne), if_pos rfl]
    exact h.pos
  . rw [hread, hpage, if_neg (Ne.symm hopen.ne), if_pos rfl]
    exact h.max
  . intro q
    have hset := countP_set hopen.cursor (some { cur with txn := s.readTxn }) q
    simp only [reads, Option.any_some, decide_eq_true_eq] at hset
    rw [hpage, hcursors]
    split
    next hq =>
      -- no other cursor is on the page of the transaction
      have hzero : (s.rollback c).cursors.countP (reads q) = 0 := by
        apply countP_eq_zero
        intro c' x hx
        rw [hcursor] at hx
        split at hx
        . rw [← Option.some.inj hx, hq]
          exact Ne.symm hopen.ne
        next hne =>
          intro htxn
          have hown := (h.cursor c' x hx).active
          rw [htxn, hq, hopen.activeTxn, hopen.txnCursorId] at hown
          exact hne (Option.some.inj (hown rfl)).symm
      rw [hcursors] at hzero
      rw [hzero]
      rfl
    next hq =>
      rw [hopen.txn, if_neg (Ne.symm hq)] at hset
      split
      next hr =>
        rw [if_pos hr.symm] at hset
        change (s.page q).refs + 1 = _
        rw [h.refs q]
        exact ofNat_add_one hset
      next hr =>
        rw [if_neg (Ne.symm hr)] at hset
        rw [h.refs q]
        exact congrArg _ hset.symm
  . intro c' x hx
    rw [hcursor] at hx
    split at hx
    . rw [← Option.some.inj hx]
      refine ⟨?_, ?_, ?_⟩
      . rw [hcount]
        exact h.read
      . rw [hnext]
        exact fun heq => hopen.ne (Option.some.inj heq)
      . rw [hactive]
        rintro ⟨⟩
    next hne =>
      have hxi := h.cursor c' x hx
      refine ⟨?_, ?_, ?_⟩
      . rw [hcount]
        exact hxi.lt
      . rw [hnext]
        intro heq
        have hown := hxi.active
        rw [← heq, hopen.activeTxn, hopen.txnCursorId] at hown
        exact hne (Option.some.inj (hown rfl)).symm
      . rw [hactive]
        rintro ⟨⟩
  . rw [hpage, if_pos rfl]
  . rw [hpage, if_neg (Ne.symm hopen.ne), if_pos rfl]

/-- A cursor that has no transaction is gone. -/
theorem Pages.dropCursor (h : s.Pages) {c : Nat} {cur : TxnCursor} (hc : s.cursor? c = some cur)
    (hne : s.txnCursorId ≠ some c) :
    ((s.setRefs cur.txn ((s.page cur.txn).refs - 1)).setCursor c none).Pages := by
  have hpage : ∀ q, ((s.setRefs cur.txn ((s.page cur.txn).refs - 1)).page q).txnId =
      (s.page q).txnId := by
    intro q
    rw [page_setRefs]
    split
    next hq => rw [hq]
    . rfl
  have hcursor : ∀ c', ((s.setRefs cur.txn ((s.page cur.txn).refs - 1)).setCursor c none).cursor? c' =
      if c' = c then none else s.cursor? c' :=
    fun c' => cursor?_set hc c'
  refine ⟨h.read, ?_, ?_, ?_, ?_, ?_⟩
  . exact (hpage s.readTxn).symm ▸ h.pos
  . exact (hpage s.readTxn).symm ▸ h.max
  . intro q
    have hset := countP_set hc none q
    simp only [reads, Option.any_none, Bool.false_eq_true, ↓reduceIte, Nat.add_zero] at hset
    change ((s.setRefs cur.txn ((s.page cur.txn).refs - 1)).page q).refs =
      UInt32.ofNat ((s.cursors.set c none).countP (reads q))
    rw [page_setRefs]
    split
    next hq =>
      rw [if_pos hq.symm] at hset
      rw [← hq]
      change (s.page q).refs - 1 = _
      rw [h.refs q]
      exact ofNat_sub_one hset
    next hq =>
      rw [if_neg (Ne.symm hq), Nat.add_zero] at hset
      rw [h.refs q]
      exact congrArg _ hset.symm
  . intro c' x hx
    rw [hcursor] at hx
    split at hx
    . cases hx
    . have hxi := h.cursor c' x hx
      exact ⟨hxi.lt, hxi.next, hxi.active⟩
  . rcases h.state with ⟨n, hclosed⟩ | ⟨c', p, own, hopen, hid⟩
    . exact Or.inl ⟨n, hclosed.txnLock, hclosed.txnCursorId, hclosed.activeTxn,
        hclosed.preparedTxn, hclosed.nextTxnPage, hclosed.lt, hclosed.ne⟩
    . have hcc : c' ≠ c := fun heq => hne (heq ▸ hopen.txnCursorId)
      refine Or.inr ⟨c', p, own, ⟨hopen.txnLock, hopen.txnCursorId, hopen.activeTxn, ?_, hopen.txn,
        hopen.ne, hopen.next⟩, ?_⟩
      . rw [hcursor, if_neg hcc]
        exact hopen.cursor
      . change ((s.setRefs cur.txn ((s.page cur.txn).refs - 1)).page p).txnId = _
        rw [hpage]
        exact hid.trans (congrArg (Serial.add · 1) (hpage s.readTxn).symm)

end Pages

end TransactionDB

namespace LogParser

variable {p : LogParser}

/-- The records of a transaction up to PREPARE. -/
theorem foldl_prepared (hgoing : p.stopped = false) {t : Nat × Nat} (hcur : p.current = some t)
    {rs : List LogRecord} (hrs : ∀ r ∈ rs, r = .op ∨ r = .prepare) :
    ∃ b, rs.foldl step p = { p with prepared := b } := by
  induction rs generalizing p with
  | nil => exact ⟨p.prepared, rfl⟩
  | cons r rs ih =>
    have hrest : ∀ r ∈ rs, r = .op ∨ r = .prepare := fun x hx => hrs x (List.mem_cons_of_mem _ hx)
    rw [List.foldl_cons]
    rcases hrs r List.mem_cons_self with rfl | rfl
    . have hstep : step p .op = p := by simp [step, hgoing, hcur]
      rw [hstep]
      exact ih hgoing hcur hrest
    . have hstep : step p .prepare = { p with prepared := true } := by simp [step, hgoing, hcur]
      rw [hstep]
      exact ih hgoing hcur hrest

theorem foldl_chunk (hgoing : p.stopped = false) (id number : Nat) {rs : List LogRecord}
    (hrs : ∀ r ∈ rs, r = .op ∨ r = .prepare) :
    (.begin id number :: rs ++ [.prepare] : List LogRecord).foldl step p =
      ⟨false, some (id, number), true, p.committed⟩ := by
  have hbegin : step p (.begin id number) = ⟨false, some (id, number), false, p.committed⟩ := by
    simp [step, hgoing]
  rw [List.cons_append, List.foldl_cons, hbegin, List.foldl_append]
  obtain ⟨b, hb⟩ := foldl_prepared (p := ⟨false, some (id, number), false, p.committed⟩) rfl rfl hrs
  rw [hb]
  simp [step]

theorem step_commit (hgoing : p.stopped = false) {t : Nat × Nat} (hcur : p.current = some t)
    (hprepared : p.prepared = true) : step p .commit = ⟨false, none, false, p.committed ++ [t]⟩ := by
  simp [step, hgoing, hcur, hprepared]

end LogParser

namespace TransactionDB

section Log

variable {s : TransactionDB α}

/-- A step that writes nothing to the log. -/
theorem Log.of_same {s' : TransactionDB α} (h : s.Log)
    (hlog : (s'.file, s'.activeLog, s'.buf, s'.hasRecords, s'.prepared) =
      (s.file, s.activeLog, s.buf, s.hasRecords, s.prepared))
    (hghost : (s'.number, s'.committed, s'.succeeded) = (s.number, s.committed, s.succeeded))
    (hid : s.txnCursorId = none → s'.txnCursorId = none)
    (howned : ∀ c p cur, s'.owned c = some (p, cur) → cur.useWal = true →
      ∃ cur', s.owned c = some (p, cur') ∧ cur'.useWal = true ∧
        (s'.page p).txnId = (s.page p).txnId) : s'.Log := by
  simp only [Prod.mk.injEq] at hlog hghost
  obtain ⟨hfile, hactive, hbuf, hrecords, hprepared⟩ := hlog
  obtain ⟨hnumber, hcommitted, hsucceeded⟩ := hghost
  refine ⟨?_, ?_, ?_, ?_, ?_, ?_⟩
  . rw [hfile]
    exact h.going
  . rw [hfile, hsucceeded]
    exact h.parsed
  . rw [hcommitted, hsucceeded]
    exact h.committed
  . rw [hsucceeded, hnumber]
    exact h.number
  . rw [hsucceeded, hnumber]
    exact fun hne => h.fresh fun hnone => hne (hid hnone)
  . intro c p cur ho hwal
    obtain ⟨cur', ho', hwal', htxn⟩ := howned c p cur ho hwal
    have hlogged := h.logged c p cur' ho' hwal'
    rw [htxn]
    refine ⟨?_, ?_⟩
    . rw [hprepared, hbuf, hnumber]
      exact hlogged.buf
    . rw [hprepared, hrecords, hfile, hactive, hnumber]
      exact hlogged.file

/-- Only one cursor has the transaction. -/
theorem owned_unique {c c' : Nat} {o o' : Nat × TxnCursor} (ho : s.owned c = some o)
    (ho' : s.owned c' = some o') : c' = c ∧ o' = o := by
  have hid : s.txnCursorId = some c := by
    rw [owned] at ho
    split at ho
    next hid => exact hid
    . cases ho
  have hid' : s.txnCursorId = some c' := by
    rw [owned] at ho'
    split at ho'
    next hid => exact hid
    . cases ho'
  rw [hid, Option.some.injEq] at hid'
  rw [← hid', ho, Option.some.injEq] at ho'
  exact ⟨hid'.symm, ho'.symm⟩

/-- The records of the transaction go to the end of the file. -/
theorem Log.chunk (h : s.Log) {id : Nat} (hlogged : s.Logged id) (hprepared : s.prepared = false) :
    ∃ cs, LogParser.parse (s.file s.activeLog ++ (s.buf ++ [.prepare])) =
      ⟨false, some (id, s.number), true, cs⟩ ∧ ∀ x ∈ cs, x.2 ∈ s.succeeded := by
  obtain ⟨rs, hbuf, hrs⟩ := hlogged.buf hprepared
  refine ⟨(LogParser.parse (s.file s.activeLog)).committed, ?_, h.parsed s.activeLog⟩
  rw [LogParser.parse_append, hbuf, LogParser.foldl_chunk (h.going s.activeLog) id s.number hrs]

/-- The log is written behind what is there. -/
theorem Log.append (h : s.Log) {rs buf : List LogRecord} {prepared : Bool} {id : Nat}
    {cs : List (Nat × Nat)} {c p : Nat} {cur : TxnCursor} (ho : s.owned c = some (p, cur))
    (hid : (s.page p).txnId = id) (hparse : LogParser.parse (s.file s.activeLog ++ rs) =
      ⟨false, some (id, s.number), true, cs⟩) (hcs : ∀ x ∈ cs, x.2 ∈ s.succeeded)
    (hbuf : prepared = false → ∃ rs, buf = .begin id s.number :: rs ∧
      ∀ r ∈ rs, r = .op ∨ r = .prepare) :
    Log { s.pwrite rs with buf, prepared } := by
  have hfile : ∀ i, (s.pwrite rs).file i =
      if i = s.activeLog then s.file s.activeLog ++ rs else s.file i := by
    intro i
    simp only [pwrite, Function.update_apply]
  refine ⟨?_, ?_, h.committed, h.number, h.fresh, ?_⟩
  . intro i
    change (LogParser.parse ((s.pwrite rs).file i)).stopped = false
    rw [hfile]
    split
    . rw [hparse]
    . exact h.going i
  . intro i
    change ∀ x ∈ (LogParser.parse ((s.pwrite rs).file i)).committed, x.2 ∈ s.succeeded
    rw [hfile]
    split
    . rw [hparse]
      exact hcs
    . exact h.parsed i
  . intro c' p' cur' ho' _
    obtain ⟨-, heq⟩ := owned_unique ho ho'
    rw [Prod.mk.injEq] at heq
    have htxn : (s.page p').txnId = id := by rw [heq.1, hid]
    change Logged _ (s.page p').txnId
    rw [htxn]
    refine ⟨hbuf, fun _ _ => ?_⟩
    change (LogParser.parse ((s.pwrite rs).file s.activeLog)).current = _ ∧
      (LogParser.parse ((s.pwrite rs).file s.activeLog)).prepared = true
    rw [hfile, if_pos rfl, hparse]
    exact ⟨rfl, rfl⟩

/-- The log of the transaction is prepared. -/
theorem Log.walPrepare (h : s.Log) {c p : Nat} {cur : TxnCursor} (ho : s.owned c = some (p, cur))
    (hwal : cur.useWal = true) : s.walPrepare.Log ∧ s.walPrepare.prepared = true := by
  have hlogged := h.logged c p cur ho hwal
  unfold TransactionDB.walPrepare
  split
  next hprepared => exact ⟨h, hprepared⟩
  next hprepared =>
    rw [Bool.not_eq_true] at hprepared
    split
    . obtain ⟨cs, hparse, hcs⟩ := h.chunk hlogged hprepared
      exact ⟨h.append ho rfl hparse hcs (by simp), rfl⟩
    next hrecords =>
      rw [Bool.not_eq_true] at hrecords
      refine ⟨⟨h.going, h.parsed, h.committed, h.number, h.fresh, ?_⟩, rfl⟩
      intro c' p' cur' ho' _
      refine ⟨?_, ?_⟩
      . rintro ⟨⟩
      . intro _ hrec
        have hrec' : s.hasRecords = true := hrec
        rw [hrecords] at hrec'
        cases hrec'

/-- What nobody but the log looks at. -/
theorem ghost_walPrepare (s : TransactionDB α) : s.walPrepare.number = s.number ∧
    s.walPrepare.committed = s.committed ∧ s.walPrepare.succeeded = s.succeeded ∧
      s.walPrepare.hasRecords = s.hasRecords := by
  unfold TransactionDB.walPrepare
  split
  . exact ⟨rfl, rfl, rfl, rfl⟩
  . split <;> exact ⟨rfl, rfl, rfl, rfl⟩

theorem ghost_walCommitted (s : TransactionDB α) (cur : TxnCursor) :
    (s.walCommitted cur).number = s.number ∧ (s.walCommitted cur).committed = s.committed ∧
      (s.walCommitted cur).succeeded = s.succeeded := by
  obtain ⟨hnumber, hcommitted, hsucceeded, -⟩ := ghost_walPrepare s
  unfold walCommitted
  split
  . unfold walCommit
    split <;> exact ⟨hnumber, hcommitted, hsucceeded⟩
  . exact ⟨rfl, rfl, rfl⟩

/-- With its record COMMIT the transaction is committed for a parser. -/
theorem Log.walCommit (h : s.Log) {c p : Nat} {cur : TxnCursor} (ho : s.owned c = some (p, cur))
    (hwal : cur.useWal = true) (hrecords : s.hasRecords = true) :
    ∃ cs, LogParser.parse ((s.walCommitted cur).file s.activeLog) =
        ⟨false, none, false, cs ++ [((s.page p).txnId, s.number)]⟩ ∧
      (∀ x ∈ cs, x.2 ∈ s.succeeded) ∧
        ∀ i, i ≠ s.activeLog → (s.walCommitted cur).file i = s.file i := by
  obtain ⟨hprep, hprepared⟩ := h.walPrepare ho hwal
  obtain ⟨hcore, hpage⟩ := core_walPrepare s
  obtain ⟨hnumber, -, hsucceeded, hrec⟩ := ghost_walPrepare s
  have ho' : s.walPrepare.owned c = some (p, cur) := (owned_of_core hcore c).trans ho
  have hlogged := hprep.logged c p cur ho' hwal
  have hactive : s.walPrepare.activeLog = s.activeLog := by
    unfold TransactionDB.walPrepare
    rw [if_pos hrecords]
    split
    . rfl
    . rfl
  have hfile : ∀ i, i ≠ s.activeLog → s.walPrepare.file i = s.file i := by
    intro i hi
    unfold TransactionDB.walPrepare
    rw [if_pos hrecords]
    split
    . rfl
    . simp only [pwrite, Function.update_apply, if_neg hi]
  obtain ⟨hcur, hpre⟩ := hlogged.file hprepared (hrec.trans hrecords)
  rw [hactive, hpage, hnumber] at hcur
  rw [hactive] at hpre
  have hfile' : ∀ i, (s.walCommitted cur).file i =
      if i = s.activeLog then s.walPrepare.file s.activeLog ++ [.commit]
      else s.walPrepare.file i := by
    intro i
    rw [walCommitted, if_pos hwal, TransactionDB.walCommit, if_pos (hrec.trans hrecords)]
    simp only [pwrite, Function.update_apply, hactive]
  refine ⟨(LogParser.parse (s.walPrepare.file s.activeLog)).committed, ?_, ?_, ?_⟩
  . rw [hfile', if_pos rfl, LogParser.parse_append]
    exact LogParser.step_commit (hprep.going _) hcur hpre
  . rw [← hsucceeded]
    exact hprep.parsed _
  . intro i hi
    rw [hfile', if_neg hi]
    exact hfile i hi

/-- What a parser finds once the log of the transaction is complete. -/
theorem Log.walCommitted (h : s.Log) {c p : Nat} {cur : TxnCursor} (ho : s.owned c = some (p, cur))
    (i : Bool) : (LogParser.parse ((s.walCommitted cur).file i)).stopped = false ∧
      ∀ x ∈ (LogParser.parse ((s.walCommitted cur).file i)).committed,
        x.2 ∈ s.succeeded ∨ x.2 = s.number := by
  by_cases hwal : cur.useWal = true
  . by_cases hrecords : s.hasRecords = true
    . obtain ⟨cs, hparse, hcs, hother⟩ := h.walCommit ho hwal hrecords
      by_cases hi : i = s.activeLog
      . rw [hi, hparse]
        refine ⟨rfl, ?_⟩
        intro x hx
        rw [List.mem_append, List.mem_singleton] at hx
        rcases hx with hx | rfl
        . exact Or.inl (hcs x hx)
        . exact Or.inr rfl
      . rw [hother i hi]
        exact ⟨h.going i, fun x hx => Or.inl (h.parsed i x hx)⟩
    . obtain ⟨hprep, -⟩ := h.walPrepare ho hwal
      obtain ⟨-, -, hsucceeded, hrec⟩ := ghost_walPrepare s
      have hfile : (s.walCommitted cur).file i = s.walPrepare.file i := by
        rw [TransactionDB.walCommitted, if_pos hwal, TransactionDB.walCommit, if_neg]
        rw [hrec]
        exact hrecords
      rw [hfile]
      refine ⟨hprep.going i, fun x hx => Or.inl ?_⟩
      rw [← hsucceeded]
      exact hprep.parsed i x hx
  . rw [TransactionDB.walCommitted, if_neg hwal]
    exact ⟨h.going i, fun x hx => Or.inl (h.parsed i x hx)⟩

end Log

theorem inv_create (root : α) : (create root).Inv := by
  have hmax : 1 ≤ Serial.MAX_VALUE := by decide
  refine ⟨⟨Nat.zero_lt_two, Nat.one_pos, hmax, ?_, ?_, Or.inl ⟨1, ?_⟩⟩, ?_⟩
  . intro p
    rfl
  . rintro c cur ⟨⟩
  . exact ⟨rfl, rfl, rfl, rfl, rfl, Nat.one_lt_two, Nat.one_ne_zero⟩
  . refine ⟨fun _ => rfl, ?_, ?_, ?_, ?_, ?_⟩
    . rintro i x ⟨⟩
    . rintro n ⟨⟩
    . rintro n ⟨⟩
    . rintro - ⟨⟩
    . rintro c p cur ⟨⟩

section Steps

variable {s : TransactionDB α} (h : s.Inv)

include h

theorem Inv.createCursor : s.createCursor.Inv := by
  have hpages := h.pages.createCursor
  refine ⟨hpages, h.log.of_same rfl rfl (fun hid => hid) ?_⟩
  intro c p cur ho hwal
  obtain ⟨hopen, -⟩ := hpages.open_of_owned ho
  rcases h.pages.state with ⟨n, hclosed⟩ | ⟨c', p', own, hopen', -⟩
  . have hnone : s.txnCursorId = some c := hopen.txnCursorId
    rw [hclosed.txnCursorId] at hnone
    cases hnone
  . have hcc : c' = c := Option.some.inj (hopen'.txnCursorId.symm.trans hopen.txnCursorId)
    have hpp : p' = p := Option.some.inj (hopen'.activeTxn.symm.trans hopen.activeTxn)
    rw [hcc, hpp] at hopen'
    have hcursor : s.createCursor.cursor? c = s.cursor? c := by
      have hold := cursor?_eq_some.mp hopen'.cursor
      obtain ⟨hlt, -⟩ := List.getElem?_eq_some_iff.mp hold
      change ((s.cursors ++ [some ⟨s.readTxn, false⟩])[c]?).join = _
      rw [List.getElem?_append_left hlt]
      rfl
    have hown : own = cur := by
      have := hopen.cursor
      rw [hcursor, hopen'.cursor] at this
      exact Option.some.inj this
    refine ⟨own, hopen'.owned_eq, hown ▸ hwal, ?_⟩
    rw [TransactionDB.createCursor]
    simp only [page_setRefs]
    split
    next hq => rw [hq]
    . rfl

theorem Inv.update {c : Nat} {cur : TxnCursor} (hc : s.cursor? c = some cur) :
    (s.update c cur).Inv := by
  refine ⟨h.pages.update hc, ?_⟩
  unfold TransactionDB.update
  split
  . exact h.log
  . split
    next hlt =>
      refine h.log.of_same rfl rfl (fun hid => hid) ?_
      intro c' p own ho hwal
      have hset : ∀ c', (s.setTxn c cur s.readTxn).cursor? c' =
          if c' = c then some { cur with txn := s.readTxn } else s.cursor? c' :=
        fun c' => cursor?_set hc c'
      by_cases hcc : c' = c
      . rw [owned, hset, if_pos hcc, hcc] at ho
        refine ⟨cur, ?_, ?_, (page_setTxn p).2⟩
        . rw [hcc, owned, hc]
          split at ho
          next hid =>
            have hid' : s.txnCursorId = some c := hid
            rw [if_pos hid']
            rw [Option.bind_eq_some_iff] at ho ⊢
            obtain ⟨q, hq, heq⟩ := ho
            rw [Option.map_some, Option.some.injEq, Prod.mk.injEq] at heq
            exact ⟨q, hq, by rw [heq.1]; rfl⟩
          . cases ho
        . split at ho
          . rw [Option.bind_eq_some_iff] at ho
            obtain ⟨q, hq, heq⟩ := ho
            rw [Option.map_some, Option.some.injEq, Prod.mk.injEq] at heq
            rw [← heq.2] at hwal
            exact hwal
          . cases ho
      . rw [owned, hset, if_neg hcc] at ho
        exact ⟨own, ho, hwal, (page_setTxn p).2⟩
    . exact h.log

theorem Inv.start {c : Nat} {useWal : Bool} {s' : TransactionDB α}
    (hs : s.start c useWal = some s') : s'.Inv := by
  unfold TransactionDB.start at hs
  split at hs
  . cases hs
  next cur hc =>
    split at hs
    . rw [← Option.some.inj hs]
      exact h
    . split at hs
      . cases hs
      next hlock =>
        rw [Option.map_eq_some_iff] at hs
        obtain ⟨p, hp, rfl⟩ := hs
        obtain ⟨n, hclosed⟩ : ∃ n, s.Closed n := by
          rcases h.pages.state with hclosed | ⟨c', q, own, hopen, -⟩
          . exact hclosed
          . exact absurd hopen.txnLock hlock
        have hnp : n = p := Option.some.inj (hclosed.nextTxnPage.symm.trans hp)
        rw [hnp] at hclosed
        obtain ⟨hpages, hopen⟩ := h.pages.startTxn hc hclosed useWal
        have hfile : (s.startTxn c cur useWal p).file = s.file := by
          rw [TransactionDB.startTxn]
          cases useWal <;> rfl
        have hghost : (s.startTxn c cur useWal p).number = s.number + 1 ∧
            (s.startTxn c cur useWal p).committed = s.committed ∧
              (s.startTxn c cur useWal p).succeeded = s.succeeded := by
          rw [TransactionDB.startTxn]
          cases useWal <;> exact ⟨rfl, rfl, rfl⟩
        obtain ⟨hnumber, hcommitted, hsucceeded⟩ := hghost
        refine ⟨hpages, ?_, ?_, ?_, ?_, ?_, ?_⟩
        . rw [hfile]
          exact h.log.going
        . rw [hfile, hsucceeded]
          exact h.log.parsed
        . rw [hcommitted, hsucceeded]
          exact h.log.committed
        . rw [hsucceeded, hnumber]
          exact fun m hm => Nat.le_succ_of_le (h.log.number m hm)
        . rw [hsucceeded, hnumber]
          intro _ hmem
          have := h.log.number _ hmem
          omega
        . intro c' p' own ho hwal
          obtain ⟨-, heq⟩ := owned_unique hopen.owned_eq ho
          rw [Prod.mk.injEq] at heq
          have huse : useWal = true := by
            rw [heq.2] at hwal
            exact hwal
          rw [heq.1, huse]
          refine ⟨fun _ => ⟨[], rfl, by simp⟩, ?_⟩
          rintro ⟨⟩

theorem Inv.write {cur : TxnCursor} (root : α)
    (hok : cur.useWal = true → s.prepared = true → s.hasRecords = true) :
    (s.write cur root).Inv := by
  refine ⟨h.pages.write cur root, ?_⟩
  have hid : ∀ q, ((s.setPage cur.txn { s.page cur.txn with root }).page q).txnId =
      (s.page q).txnId := by
    intro q
    simp only [setPage, Function.update_apply]
    split
    next hq => rw [hq]
    . rfl
  unfold TransactionDB.write
  simp only
  split
  next hwal =>
    refine ⟨h.log.going, h.log.parsed, h.log.committed, h.log.number, h.log.fresh, ?_⟩
    intro c' p own ho' hwal'
    have hlogged := h.log.logged c' p own ho' hwal'
    change Logged _ ((s.setPage cur.txn { s.page cur.txn with root }).page p).txnId
    rw [hid]
    refine ⟨?_, fun hprepared _ => hlogged.file hprepared (hok hwal hprepared)⟩
    intro hprepared
    obtain ⟨rs, hbuf, hrs⟩ := hlogged.buf hprepared
    refine ⟨rs ++ [.op], ?_, ?_⟩
    . change s.buf ++ [.op] = _
      rw [hbuf]
      rfl
    . intro r hr
      rw [List.mem_append, List.mem_singleton] at hr
      rcases hr with hr | hr
      . exact hrs r hr
      . exact Or.inl hr
  . exact h.log.of_same rfl rfl (fun hid => hid) fun c' p own ho' hwal' =>
      ⟨own, ho', hwal', hid p⟩

theorem Inv.flushed : s.flushed.Inv := by
  refine ⟨h.pages.of_log rfl rfl, ?_⟩
  have hfile : ∀ i, s.flushed.file i = if i = !s.activeLog then [] else s.file i := by
    intro i
    simp only [TransactionDB.flushed, Function.update_apply]
  refine ⟨?_, ?_, h.log.committed, h.log.number, h.log.fresh, ?_⟩
  . intro i
    rw [hfile]
    split
    . rfl
    . exact h.log.going i
  . intro i x hx
    rw [hfile] at hx
    split at hx
    . cases hx
    . exact h.log.parsed i x hx
  . intro c p cur ho hwal
    have hlogged := h.log.logged c p cur ho hwal
    refine ⟨hlogged.buf, ?_⟩
    intro hprepared hrecords
    have hsame : s.flushed.file s.activeLog = s.file s.activeLog := by
      rw [hfile, if_neg (by simp)]
    change (LogParser.parse (s.flushed.file s.activeLog)).current = _ ∧
      (LogParser.parse (s.flushed.file s.activeLog)).prepared = true
    rw [hsame]
    exact hlogged.file hprepared hrecords

/-- The database prepares the transaction. -/
theorem Inv.prepareTxn {c : Nat} {o : Nat × TxnCursor} (ho : s.owned c = some o) :
    (s.prepareTxn o.1).Inv ∧ (s.prepareTxn o.1).Open c o.1 o.2 ∧
      (s.prepareTxn o.1).preparedTxn = o.1 := by
  obtain ⟨hopen, hid⟩ := h.pages.open_of_owned ho
  obtain ⟨hpages, hopen', hprepared, hpage⟩ := h.pages.prepareTxn hopen hid
  refine ⟨⟨hpages, ?_⟩, hopen', hprepared⟩
  have hp : o.1 < s.pageCount := hopen.txn ▸ (h.pages.cursor c o.2 hopen.cursor).lt
  obtain ⟨-, hlog, hghost⟩ := same_prepareTxn s o.1
  refine h.log.of_same hlog hghost ?_ ?_
  . intro hnone
    rw [hopen.txnCursorId] at hnone
    cases hnone
  . intro c' p cur ho' hwal
    obtain ⟨hcc, heq⟩ := owned_unique hopen'.owned_eq ho'
    rw [Prod.mk.injEq] at heq
    refine ⟨o.2, ?_, heq.2 ▸ hwal, ?_⟩
    . rw [hcc, heq.1]
      exact ho
    . rw [heq.1, hpage _ hp]

/-- The log is prepared, if there is one. -/
theorem Inv.walPrepare {c : Nat} {o : Nat × TxnCursor} (ho : s.owned c = some o) :
    (if o.2.useWal then s.walPrepare else s).Inv ∧
      (if o.2.useWal then s.walPrepare else s).owned c = some o := by
  split
  next hwal =>
    obtain ⟨hcore, hpage⟩ := core_walPrepare s
    exact ⟨⟨h.pages.of_log hcore hpage, (h.log.walPrepare ho hwal).1⟩,
      (owned_of_core hcore c).trans ho⟩
  . exact ⟨h, ho⟩

theorem Inv.prepareCommit (c : Nat) : (s.prepareCommit c).Inv := by
  unfold TransactionDB.prepareCommit
  split
  . exact h
  next p cur ho =>
    obtain ⟨hinv, ho'⟩ := h.walPrepare ho
    exact (hinv.prepareTxn ho').1

theorem Inv.commit (c : Nat) : (s.commit c).Inv := by
  unfold TransactionDB.commit
  split
  . exact h
  next p cur ho =>
    obtain ⟨hcore, hpage⟩ := core_walCommitted s cur
    obtain ⟨hnumber, hcommitted, hsucceeded⟩ := ghost_walCommitted s cur
    have hpages := h.pages.of_log hcore hpage
    have ho' : (s.walCommitted cur).owned c = some (p, cur) := (owned_of_core hcore c).trans ho
    obtain ⟨hopen, hid⟩ := hpages.open_of_owned ho'
    obtain ⟨hprep, hopen', hprepared, hsame⟩ := hpages.prepareTxn hopen hid
    have hp : p < (s.walCommitted cur).pageCount := by
      have hlt := (hpages.cursor c cur hopen.cursor).lt
      have htxn : cur.txn = p := hopen.txn
      rw [htxn] at hlt
      exact hlt
    obtain ⟨hread, hlog, hghost⟩ := same_prepareTxn (s.walCommitted cur) p
    simp only [Prod.mk.injEq] at hlog hghost
    have hfile := hlog.1
    rw [hnumber, hcommitted, hsucceeded] at hghost
    have hid' : (((s.walCommitted cur).prepareTxn p).page p).txnId =
        Serial.add (((s.walCommitted cur).prepareTxn p).page
          ((s.walCommitted cur).prepareTxn p).readTxn).txnId 1 := by
      rw [hread, hsame _ hp, hsame _ hpages.read]
      exact hid
    have hswitch := hprep.switchTxn hopen' hid' hprepared
    refine ⟨hswitch.of_log rfl rfl, ?_, ?_, ?_, ?_, ?_, ?_⟩
    . intro i
      change (LogParser.parse (((s.walCommitted cur).prepareTxn p).file i)).stopped = false
      rw [hfile]
      exact (h.log.walCommitted ho i).1
    . intro i x hx
      change x ∈ (LogParser.parse (((s.walCommitted cur).prepareTxn p).file i)).committed at hx
      change x.2 ∈ ((s.walCommitted cur).prepareTxn p).succeeded ++
        [((s.walCommitted cur).prepareTxn p).number]
      rw [hfile] at hx
      rw [hghost.2.2, hghost.1, List.mem_append, List.mem_singleton]
      exact (h.log.walCommitted ho i).2 x hx
    . intro n hn
      change n ∈ ((s.walCommitted cur).prepareTxn p).committed ++
        [((s.walCommitted cur).prepareTxn p).number] at hn
      change n ∈ ((s.walCommitted cur).prepareTxn p).succeeded ++
        [((s.walCommitted cur).prepareTxn p).number]
      rw [hghost.2.1, hghost.1, List.mem_append, List.mem_singleton] at hn
      rw [hghost.2.2, hghost.1, List.mem_append, List.mem_singleton]
      rcases hn with hn | hn
      . exact Or.inl (h.log.committed n hn)
      . exact Or.inr hn
    . intro n hn
      change n ∈ ((s.walCommitted cur).prepareTxn p).succeeded ++
        [((s.walCommitted cur).prepareTxn p).number] at hn
      change n ≤ ((s.walCommitted cur).prepareTxn p).number
      rw [hghost.2.2, hghost.1, List.mem_append, List.mem_singleton] at hn
      rw [hghost.1]
      rcases hn with hn | hn
      . exact h.log.number n hn
      . exact Nat.le_of_eq hn
    . exact fun hne => absurd rfl hne
    . rintro c' p' cur' ⟨⟩

theorem Inv.rollback (c : Nat) :
    (s.rollback c).Inv ∧ (s.rollback c).txnCursorId ≠ some c := by
  cases ho : s.owned c with
  | none =>
    have hself : s.rollback c = s := by rw [TransactionDB.rollback, ho]
    rw [hself]
    refine ⟨h, ?_⟩
    intro hid
    rcases h.pages.state with ⟨n, hclosed⟩ | ⟨c', p, own, hopen, -⟩
    . rw [hclosed.txnCursorId] at hid
      cases hid
    . have hcc : c' = c := Option.some.inj (hopen.txnCursorId.symm.trans hid)
      rw [← hcc, hopen.owned_eq] at ho
      cases ho
  | some o =>
    obtain ⟨hopen, -⟩ := h.pages.open_of_owned ho
    obtain ⟨hpages, hclosed, -⟩ := h.pages.rollback hopen
    have hfile : (s.rollback c).file = s.file := by
      rw [TransactionDB.rollback, ho]
      simp only
      cases o.2.useWal <;> rfl
    have hghost : (s.rollback c).number = s.number ∧ (s.rollback c).committed = s.committed ∧
        (s.rollback c).succeeded = s.succeeded := by
      rw [TransactionDB.rollback, ho]
      simp only
      cases o.2.useWal <;> exact ⟨rfl, rfl, rfl⟩
    obtain ⟨hnumber, hcommitted, hsucceeded⟩ := hghost
    refine ⟨⟨hpages, ?_, ?_, ?_, ?_, ?_, ?_⟩, ?_⟩
    . rw [hfile]
      exact h.log.going
    . rw [hfile, hsucceeded]
      exact h.log.parsed
    . rw [hcommitted, hsucceeded]
      exact h.log.committed
    . rw [hsucceeded, hnumber]
      exact h.log.number
    . exact fun hne => absurd hclosed.txnCursorId hne
    . intro c' p cur ho'
      rw [hclosed.not_owned c'] at ho'
      cases ho'
    . rw [hclosed.txnCursorId]
      simp

theorem Inv.destroyCursor (c : Nat) : (s.destroyCursor c).Inv := by
  obtain ⟨hinv, hne⟩ := h.rollback c
  unfold TransactionDB.destroyCursor
  simp only
  split
  . exact hinv
  next cur hc =>
    refine ⟨hinv.pages.dropCursor hc hne, hinv.log.of_same rfl rfl (fun hid => hid) ?_⟩
    intro c' p own ho hwal
    have hset : ∀ c', (((s.rollback c).setRefs cur.txn
        (((s.rollback c).page cur.txn).refs - 1)).setCursor c none).cursor? c' =
          if c' = c then none else (s.rollback c).cursor? c' :=
      fun c' => cursor?_set hc c'
    have hcc : c' ≠ c := by
      intro heq
      rw [owned, hset, if_pos heq] at ho
      split at ho
      . rw [Option.bind_eq_some_iff] at ho
        obtain ⟨q, -, heq⟩ := ho
        cases heq
      . cases ho
    rw [owned, hset, if_neg hcc] at ho
    refine ⟨own, ho, hwal, ?_⟩
    change (((s.rollback c).setRefs cur.txn _).page p).txnId = _
    rw [page_setRefs]
    split
    next hq => rw [hq]
    . rfl

omit h in
theorem mem_replayed {n : Nat} : n ∈ s.replayed ↔ ∃ i, ∃ x ∈ (LogParser.parse (s.file i)).committed,
    Serial.le x.1 (s.page s.readTxn).txnId = false ∧ x.2 = n := by
  simp only [replayed, List.mem_map, List.mem_filter, List.mem_append, Bool.not_eq_true',
    Bool.exists_bool]
  constructor
  . rintro ⟨x, ⟨hx | hx, hnew⟩, heq⟩
    . exact Or.inl ⟨x, hx, hnew, heq⟩
    . exact Or.inr ⟨x, hx, hnew, heq⟩
  . rintro (⟨x, hx, hnew, heq⟩ | ⟨x, hx, hnew, heq⟩)
    . exact ⟨x, ⟨Or.inl hx, hnew⟩, heq⟩
    . exact ⟨x, ⟨Or.inr hx, hnew⟩, heq⟩

/-- Only what has been reported as committed is committed, or will be by recovery. -/
theorem Inv.reported {n : Nat} (hn : n ∈ s.committed ∨ n ∈ s.replayed) : n ∈ s.succeeded := by
  rcases hn with hn | hn
  . exact h.log.committed n hn
  . obtain ⟨i, x, hx, -, rfl⟩ := mem_replayed.mp hn
    exact h.log.parsed i x hx

theorem Inv.goesOn {c p : Nat} {cur : TxnCursor} (hopen : s.Open c p cur) : s.GoesOn c := by
  obtain ⟨hpages, hclosed, hnext, hread, hroot⟩ := h.pages.rollback hopen
  refine ⟨⟨p, cur, hopen⟩, h.pages.refs, ⟨p, hclosed, hnext⟩, hpages.refs, ?_⟩
  rw [hread]
  exact hroot

omit h in
/-- A call that leaves pages and cursors alone. -/
theorem Inv.usable (s : TransactionDB α) {s' : TransactionDB α} (h' : s'.Inv)
    (hcore : s'.core = s.core) (hpage : s'.page = s.page)
    (hsucceeded : s'.succeeded = s.succeeded) (c : Nat) : s.Usable s' c := by
  simp only [core, Prod.mk.injEq] at hcore
  obtain ⟨-, hread, -, hnext, hlock, hid, hactive, -⟩ := hcore
  refine ⟨?_, Or.inl ?_, ?_⟩
  . rw [hread, hpage]
  . rw [control, control, hlock, hid, hnext, hactive, hpage]
  . intro n hn
    rw [← hsucceeded]
    exact h'.reported hn

theorem Inv.openWal {c : Nat} {cur : TxnCursor} (hc : s.cursor? c = some cur)
    (hne : s.txnCursorId ≠ some c) : (s.setCursor c (some { cur with useWal := true })).Inv := by
  have hset : ∀ c', (s.setCursor c (some { cur with useWal := true })).cursor? c' =
      if c' = c then some { cur with useWal := true } else s.cursor? c' :=
    fun c' => cursor?_set hc c'
  refine ⟨⟨h.pages.read, h.pages.pos, h.pages.max, h.pages.refs.setCursor hc rfl, ?_, ?_⟩,
    h.log.of_same rfl rfl (fun hid => hid) ?_⟩
  . intro c' x hx
    rw [hset] at hx
    split at hx
    next heq =>
      rw [← Option.some.inj hx, heq]
      have hcur := h.pages.cursor c cur hc
      exact ⟨hcur.lt, hcur.next, hcur.active⟩
    . have hxi := h.pages.cursor c' x hx
      exact ⟨hxi.lt, hxi.next, hxi.active⟩
  . rcases h.pages.state with ⟨n, hclosed⟩ | ⟨c', p, own, hopen, hid⟩
    . exact Or.inl ⟨n, hclosed.txnLock, hclosed.txnCursorId, hclosed.activeTxn,
        hclosed.preparedTxn, hclosed.nextTxnPage, hclosed.lt, hclosed.ne⟩
    . have hcc : c' ≠ c := fun heq => hne (heq ▸ hopen.txnCursorId)
      refine Or.inr ⟨c', p, own, ⟨hopen.txnLock, hopen.txnCursorId, hopen.activeTxn, ?_, hopen.txn,
        hopen.ne, hopen.next⟩, hid⟩
      rw [hset, if_neg hcc]
      exact hopen.cursor
  . intro c' p own ho hwal
    have hcc : c' ≠ c := by
      intro heq
      rw [owned] at ho
      split at ho
      next hid => exact hne (heq ▸ hid)
      . cases ho
    rw [owned, hset, if_neg hcc] at ho
    exact ⟨own, ho, hwal, rfl⟩

/-- A harmless exception: the run goes on as if nothing had happened. -/
theorem Inv.fail {call : FailedCall} {s' : TransactionDB α} (hf : s.fail call = some s')
    (hok : s.Harmless call) : s'.Inv ∧ s.Usable s' call.cursor := by
  cases call with
  | openWal c =>
    rw [TransactionDB.fail, Option.bind_eq_some_iff] at hf
    obtain ⟨cur, hc, hf⟩ := hf
    split at hf
    next hcond =>
      rw [← Option.some.inj hf]
      have hinv := h.openWal hc hcond.1
      refine ⟨hinv, rfl, Or.inl rfl, ?_⟩
      intro n hn
      exact hinv.reported hn
    . cases hf
  | startFree c useWal freed => cases hok
  | prepareWrite c =>
    rw [TransactionDB.fail, Option.bind_eq_some_iff] at hf
    obtain ⟨o, ho, hf⟩ := hf
    split at hf
    next hcond =>
      rw [← Option.some.inj hf]
      have hinv : Inv { s with buf := s.buf ++ [.prepare] } := by
        refine ⟨h.pages.of_log rfl rfl, h.log.going, h.log.parsed, h.log.committed, h.log.number,
          h.log.fresh, ?_⟩
        intro c' p cur ho' hwal
        have hlogged := h.log.logged c' p cur ho' hwal
        refine ⟨?_, hlogged.file⟩
        intro hprepared
        obtain ⟨rs, hbuf, hrs⟩ := hlogged.buf hprepared
        refine ⟨rs ++ [.prepare], ?_, ?_⟩
        . change s.buf ++ [.prepare] = _
          rw [hbuf]
          rfl
        . intro r hr
          rw [List.mem_append, List.mem_singleton] at hr
          rcases hr with hr | hr
          . exact hrs r hr
          . exact Or.inr hr
      exact ⟨hinv, hinv.usable s rfl rfl rfl c⟩
    . cases hf
  | prepareSync c =>
    rw [TransactionDB.fail, Option.bind_eq_some_iff] at hf
    obtain ⟨o, ho, hf⟩ := hf
    split at hf
    next hcond =>
      rw [← Option.some.inj hf]
      have hlogged := h.log.logged c o.1 o.2 ho hcond.1.1
      obtain ⟨cs, hparse, hcs⟩ := h.log.chunk hlogged hcond.2
      have hlog : Log { s.pwrite (s.buf ++ [.prepare]) with
          buf := s.buf ++ [.prepare], prepared := s.prepared } := by
        refine h.log.append ho rfl hparse hcs fun hprepared => ?_
        obtain ⟨rs, hbuf, hrs⟩ := hlogged.buf hprepared
        refine ⟨rs ++ [.prepare], by rw [hbuf]; rfl, ?_⟩
        intro r hr
        rw [List.mem_append, List.mem_singleton] at hr
        rcases hr with hr | hr
        . exact hrs r hr
        . exact Or.inr hr
      have hinv : Inv { s.pwrite (s.buf ++ [.prepare]) with buf := s.buf ++ [.prepare] } :=
        ⟨h.pages.of_log rfl rfl, hlog⟩
      exact ⟨hinv, hinv.usable s rfl rfl rfl c⟩
    . cases hf
  | prepareClone c =>
    rw [TransactionDB.fail, Option.bind_eq_some_iff] at hf
    obtain ⟨o, ho, hf⟩ := hf
    split at hf
    . rw [← Option.some.inj hf]
      obtain ⟨hinv, -⟩ := h.walPrepare ho
      refine ⟨hinv, hinv.usable s ?_ ?_ ?_ c⟩
      . split
        . exact (core_walPrepare s).1
        . rfl
      . split
        . exact (core_walPrepare s).2
        . rfl
      . split
        . exact (ghost_walPrepare s).2.2.1
        . rfl
    . cases hf
  | prepareFlush c =>
    rw [TransactionDB.fail, Option.bind_eq_some_iff] at hf
    obtain ⟨o, ho, hf⟩ := hf
    split at hf
    next hread =>
      rw [← Option.some.inj hf]
      have hinv := h.prepareCommit c
      refine ⟨hinv, ?_⟩
      obtain ⟨hprep, ho'⟩ := h.walPrepare ho
      obtain ⟨-, hopen', -⟩ := hprep.prepareTxn ho'
      have heq : s.prepareCommit c =
          (if o.2.useWal then s.walPrepare else s).prepareTxn o.1 := by
        rw [TransactionDB.prepareCommit, ho]
      have hcore : (if o.2.useWal then s.walPrepare else s).core = s.core ∧
          (if o.2.useWal then s.walPrepare else s).page = s.page := by
        split
        . exact core_walPrepare s
        . exact ⟨rfl, rfl⟩
      have hsucceeded : (s.prepareCommit c).succeeded = s.succeeded := by
        obtain ⟨-, -, hghost⟩ := same_prepareTxn (if o.2.useWal then s.walPrepare else s) o.1
        simp only [Prod.mk.injEq] at hghost
        rw [heq, hghost.2.2]
        split
        . exact (ghost_walPrepare s).2.2.1
        . rfl
      refine ⟨?_, Or.inr ?_, ?_⟩
      . obtain ⟨hopen, hid⟩ := hprep.pages.open_of_owned ho'
        obtain ⟨-, -, -, hpage⟩ := hprep.pages.prepareTxn hopen hid
        have hsame : (s.prepareCommit c).readTxn = s.readTxn := by
          rw [heq, (same_prepareTxn _ _).1]
          have := hcore.1
          simp only [core, Prod.mk.injEq] at this
          exact this.2.1
        have hcount : s.readTxn < (if o.2.useWal then s.walPrepare else s).pageCount := by
          have := hcore.1
          simp only [core, Prod.mk.injEq] at this
          rw [this.1]
          exact h.pages.read
        rw [hsame, heq, hpage _ hcount, hcore.2]
      . rw [heq] at hinv ⊢
        exact hinv.goesOn hopen'
      . intro n hn
        rw [← hsucceeded]
        exact hinv.reported hn
    . cases hf
  | commitWrite c =>
    rw [TransactionDB.fail, Option.bind_eq_some_iff] at hf
    obtain ⟨o, ho, hf⟩ := hf
    split at hf
    next hcond =>
      rw [← Option.some.inj hf]
      obtain ⟨hcore, hpage⟩ := core_walPrepare s
      have hinv : s.walPrepare.Inv :=
        ⟨h.pages.of_log hcore hpage, (h.log.walPrepare ho hcond.1).1⟩
      exact ⟨hinv, hinv.usable s hcore hpage (ghost_walPrepare s).2.2.1 c⟩
    . cases hf
  | commitSync c => cases hok
  | commitSubmit c =>
    rw [TransactionDB.fail, Option.bind_eq_some_iff] at hf
    obtain ⟨o, ho, hf⟩ := hf
    split at hf
    next hwal =>
      rw [← Option.some.inj hf]
      obtain ⟨hcore, hpage⟩ := core_walPrepare s
      obtain ⟨hlog, hprepared⟩ := h.log.walPrepare ho hwal
      have hrecords : s.walPrepare.hasRecords = false := (ghost_walPrepare s).2.2.2.trans hok
      have heq : s.walCommitted o.2 = { s.walPrepare with buf := [] } := by
        rw [walCommitted, if_pos hwal, walCommit, if_neg (by rw [hrecords]; simp)]
      rw [heq]
      have hinv : Inv { s.walPrepare with buf := [] } := by
        refine ⟨h.pages.of_log hcore hpage, hlog.going, hlog.parsed, hlog.committed, hlog.number,
          hlog.fresh, ?_⟩
        intro c' p cur ho' hwal'
        refine ⟨?_, (hlog.logged c' p cur ho' hwal').file⟩
        intro hnot
        have hnot' : s.walPrepare.prepared = false := hnot
        rw [hprepared] at hnot'
        cases hnot'
      exact ⟨hinv, hinv.usable s hcore hpage (ghost_walPrepare s).2.2.1 c⟩
    . cases hf
  | commitClone c => cases hok
  | commitFlush c => cases hok

/-- Once its record COMMIT is in the log recovery commits the transaction. -/
theorem Inv.replayed_walCommitted {c : Nat} {o : Nat × TxnCursor} (ho : s.owned c = some o)
    (hlogs : s.logs o.2) : s.number ∈ (s.walCommitted o.2).replayed := by
  obtain ⟨-, hid⟩ := h.pages.open_of_owned ho
  obtain ⟨hcore, hpage⟩ := core_walCommitted s o.2
  obtain ⟨cs, hparse, -, -⟩ := h.log.walCommit ho hlogs.1 hlogs.2
  refine mem_replayed.mpr ⟨s.activeLog, ((s.page o.1).txnId, s.number), ?_, ?_, rfl⟩
  . rw [hparse]
    simp
  . simp only [core, Prod.mk.injEq] at hcore
    rw [hpage, hcore.2.1, hid, Serial.le, Serial.lt_add_one h.pages.pos h.pages.max]
    rfl

/-- Other exceptions leave something behind. -/
theorem Inv.not_usable {call : FailedCall} {s' : TransactionDB α} (hf : s.fail call = some s')
    (hbad : ¬s.Harmless call) : ¬s.Usable s' call.cursor := by
  intro husable
  cases call with
  | openWal _ | prepareWrite _ | prepareSync _ | prepareClone _ | prepareFlush _ | commitWrite _ =>
    exact hbad trivial
  | startFree c useWal freed =>
    rw [TransactionDB.fail, Option.bind_eq_some_iff] at hf
    obtain ⟨cur, hc, hf⟩ := hf
    rw [Option.bind_eq_some_iff] at hf
    obtain ⟨p, hp, hf⟩ := hf
    split at hf
    next hcond =>
      rw [Option.some.injEq] at hf
      rcases husable.control with hcontrol | hgoes
      . rw [← hf, control, control, Prod.mk.injEq] at hcontrol
        rw [hcond.1] at hcontrol
        cases hcontrol.1
      . -- the cursor has not been moved to the page of the transaction
        obtain ⟨q, cur', hopen⟩ := hgoes.isOpen
        rw [← hf] at hopen
        have hq : p = q := Option.some.inj hopen.activeTxn
        have hset := cursor?_set (s := { s with walOpen := s.walOpen || useWal }.lockTxn c p)
          (o := some { cur with useWal }) hc c
        rw [if_pos rfl] at hset
        have hcur' := hset.symm.trans hopen.cursor
        have htxn : cur.txn = q := by
          rw [← hopen.txn, ← Option.some.inj hcur']
        exact (h.pages.cursor c cur hc).next (by rw [hp, hq, htxn])
    . cases hf
  | commitSync c =>
    rw [TransactionDB.fail, Option.bind_eq_some_iff] at hf
    obtain ⟨o, ho, hf⟩ := hf
    split at hf
    next hlogs =>
      obtain ⟨hopen, -⟩ := h.pages.open_of_owned ho
      rw [← Option.some.inj hf] at husable
      have hmem := husable.failed s.number (Or.inr (h.replayed_walCommitted ho hlogs))
      exact h.log.fresh (by rw [hopen.txnCursorId]; simp) hmem
    . cases hf
  | commitSubmit c =>
    rw [TransactionDB.fail, Option.bind_eq_some_iff] at hf
    obtain ⟨o, ho, hf⟩ := hf
    split at hf
    next hwal =>
      obtain ⟨hopen, -⟩ := h.pages.open_of_owned ho
      have hrecords : s.hasRecords = true := by
        rw [Harmless, Bool.not_eq_false] at hbad
        exact hbad
      rw [← Option.some.inj hf] at husable
      have hmem := husable.failed s.number (Or.inr (h.replayed_walCommitted ho ⟨hwal, hrecords⟩))
      exact h.log.fresh (by rw [hopen.txnCursorId]; simp) hmem
    . cases hf
  | commitClone c =>
    rw [TransactionDB.fail, Option.bind_eq_some_iff] at hf
    obtain ⟨o, ho, hf⟩ := hf
    split at hf
    . obtain ⟨hopen, -⟩ := h.pages.open_of_owned ho
      rw [Option.some.injEq] at hf
      have hnone : s'.txnCursorId = none := by
        rw [← hf]
        rfl
      rcases husable.control with hcontrol | hgoes
      . rw [control, control, Prod.mk.injEq, Prod.mk.injEq] at hcontrol
        rw [hnone, hopen.txnCursorId] at hcontrol
        cases hcontrol.2.1
      . obtain ⟨q, cur', hopen'⟩ := hgoes.isOpen
        rw [hopen'.txnCursorId] at hnone
        cases hnone
    . cases hf
  | commitFlush c =>
    rw [TransactionDB.fail, Option.bind_eq_some_iff] at hf
    obtain ⟨o, ho, hf⟩ := hf
    obtain ⟨hopen, -⟩ := h.pages.open_of_owned ho
    have hmem : s.number ∈ s'.committed := by
      rw [← Option.some.inj hf]
      obtain ⟨hnumber, -, -⟩ := ghost_walCommitted s o.2
      change s.number ∈ ((s.walCommitted o.2).prepareTxn o.1).committed ++
        [((s.walCommitted o.2).prepareTxn o.1).number]
      have hprep : ((s.walCommitted o.2).prepareTxn o.1).number = s.number := by
        obtain ⟨-, -, hghost⟩ := same_prepareTxn (s.walCommitted o.2) o.1
        simp only [Prod.mk.injEq] at hghost
        exact hghost.1.trans hnumber
      rw [hprep]
      simp
    exact h.log.fresh (by rw [hopen.txnCursorId]; simp) (husable.failed _ (Or.inl hmem))

/-- What one step leaves as it is. -/
theorem Inv.step {e : TransactionEvent α} {s' : TransactionDB α} (hs : s.step e = some s')
    (hok : s.StepOk e) : s'.Inv := by
  cases e with
  | createCursor =>
    rw [← Option.some.inj hs]
    exact h.createCursor
  | destroyCursor c =>
    rw [← Option.some.inj hs]
    exact h.destroyCursor c
  | update c =>
    rw [TransactionDB.step, Option.map_eq_some_iff] at hs
    obtain ⟨cur, hc, rfl⟩ := hs
    exact h.update hc
  | start c useWal => exact h.start hs
  | write c root =>
    rw [TransactionDB.step, Option.map_eq_some_iff] at hs
    obtain ⟨o, ho, rfl⟩ := hs
    rw [StepOk, ho] at hok
    exact h.write root hok
  | prepareCommit c =>
    rw [← Option.some.inj hs]
    exact h.prepareCommit c
  | commit c =>
    rw [← Option.some.inj hs]
    exact h.commit c
  | rollback c =>
    rw [← Option.some.inj hs]
    exact (h.rollback c).1
  | flushed =>
    rw [← Option.some.inj hs]
    exact h.flushed
  | fail call => exact (h.fail hs hok).1

end Steps

theorem Inv.run {es : List (TransactionEvent α)} {s s' : TransactionDB α} (h : s.Inv)
    (hrun : s.run es = some s') (hok : s.RunOk es) : s'.Inv := by
  induction es generalizing s with
  | nil =>
    rw [TransactionDB.run, Option.some.injEq] at hrun
    rw [← hrun]
    exact h
  | cons e es ih =>
    rw [TransactionDB.run, Option.bind_eq_some_iff] at hrun
    obtain ⟨u, hstep, hrun⟩ := hrun
    obtain ⟨hfirst, hrest⟩ := hok
    rw [hstep] at hrest
    exact ih (h.step hstep hfirst) hrun hrest

/-- Only transactions whose `commit` has come back are committed, now or by recovery, and a call
that ends with an exception leaves a database that can be used where it is harmless, and nowhere
else. -/
theorem failedCalls (root : α) (es : List (TransactionEvent α)) (s : TransactionDB α)
    (hrun : (create root).run es = some s) (hok : (create root).RunOk es) :
    (∀ n, n ∈ s.committed ∨ n ∈ s.replayed → n ∈ s.succeeded) ∧
      ∀ call s', s.fail call = some s' → (s.Usable s' call.cursor ↔ s.Harmless call) := by
  have h := (inv_create root).run hrun hok
  refine ⟨fun n hn => h.reported hn, ?_⟩
  intro call s' hf
  constructor
  . intro husable
    by_contra hbad
    exact h.not_usable hf hbad husable
  . intro hharmless
    exact (h.fail hf hharmless).2

section Decidable

instance (s : TransactionDB α) (e : TransactionEvent α) : Decidable (s.StepOk e) :=
  match e with
  | .fail _ => inferInstanceAs (Decidable (Harmless _ _))
  | .write _ _ => inferInstanceAs (Decidable (Option.elim _ True fun _ => _ → _ → _))
  | .createCursor | .destroyCursor _ | .update _ | .start _ _ | .prepareCommit _ | .commit _
  | .rollback _ | .flushed => inferInstanceAs (Decidable True)

instance runOkDecidable :
    (s : TransactionDB α) → (es : List (TransactionEvent α)) → Decidable (s.RunOk es)
  | _, [] => inferInstanceAs (Decidable True)
  | _, _ :: es =>
    have := fun s' => runOkDecidable s' es
    inferInstanceAs (Decidable (_ ∧ Option.elim _ True fun _ => _))

end Decidable

/-- A commit fails at its last record and is rolled back, the next one succeeds, a third has begun.
-/
def history : List (TransactionEvent Nat) :=
  [.createCursor, .start 0 true, .write 0 7, .fail (.commitWrite 0), .rollback 0, .start 0 true,
    .write 0 8, .commit 0, .start 0 true, .write 0 9]

theorem failedCalls_history : ∃ s, (create 0).run history = some s ∧ s.succeeded = [2] ∧
    (∀ n, n ∈ s.committed ∨ n ∈ s.replayed → n ∈ s.succeeded) ∧
      ∃ s', s.fail (.prepareFlush 0) = some s' ∧ s.Usable s' 0 := by
  obtain ⟨s, hs⟩ : ∃ s, (create 0).run history = some s :=
    Option.isSome_iff_exists.mp (by decide +kernel)
  have hfail : ((create 0).run history).map (fun s => (s.succeeded, (s.fail (.prepareFlush 0)).isSome)) =
      some ([2], true) := by
    decide +kernel
  rw [hs, Option.map_some, Option.some.injEq, Prod.mk.injEq] at hfail
  obtain ⟨s', hs'⟩ := Option.isSome_iff_exists.mp hfail.2
  obtain ⟨hreported, hcalls⟩ := failedCalls 0 history s hs (by decide +kernel)
  exact ⟨s, hs, hfail.1, hreported, s', hs', (hcalls _ s' hs').mpr trivial⟩

/-- The record COMMIT is in the log when `commit` fails, recovery will commit the transaction. -/
theorem failedCalls_committed : ¬∀ (es : List (TransactionEvent Nat)) (s : TransactionDB Nat),
    (create 0).run es = some s →
      ∀ call s', s.fail call = some s' → s.Usable s' call.cursor := by
  intro h
  let es : List (TransactionEvent Nat) := [.createCursor, .start 0 true, .write 0 7]
  obtain ⟨s, hs⟩ : ∃ s, (create 0).run es = some s :=
    Option.isSome_iff_exists.mp (by decide +kernel)
  have hfail : ((create 0).run es).map (fun s => (s.succeeded,
      (s.fail (.commitSync 0)).map fun s' => s'.replayed)) = some ([], some [1]) := by
    decide +kernel
  rw [hs, Option.map_some, Option.some.injEq, Prod.mk.injEq, Option.map_eq_some_iff] at hfail
  obtain ⟨hsucceeded, s', hs', hreplayed⟩ := hfail
  have hmem := (h es s hs _ s' hs').failed 1 (Or.inr (by rw [hreplayed]; simp))
  rw [hsucceeded] at hmem
  cases hmem

/-- The walk fails: the lock is taken, the cursor is on the committed page and writes to it. -/
example : (((create 0).run [.createCursor, .start 0 false, .commit 0, .start 0 false, .commit 0,
    .fail (.startFree 0 false 0), .write 0 5]).map fun s =>
      (s.txnLock, s.nextTxnPage, (s.page s.readTxn).root, (s.page s.readTxn).refs)) =
        some (true, none, 5, 2) := by
  decide +kernel

/-- No page for the next transaction: the cursor stays on the page the next one is written to. -/
example : (((create 0).run [.createCursor, .start 0 true, .write 0 7, .fail (.commitClone 0)]).map
    fun s => (s.replayed, s.nextTxnPage, (s.page 1).refs, (s.cursor? 0).map (·.txn))) =
      some ([1], some 1, 0, some 1) := by
  decide +kernel

end TransactionDB
end Leaves
