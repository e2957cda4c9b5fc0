import Leaves.Db.SnapshotSteps

/-!
Runs of the database with all its versions: whoever does not write reads what was committed when it
looked last, whatever the others do meanwhile.
-/

namespace Leaves

open OrdMap (Related)

namespace SnapshotDB

section Create

variable (storage : Storage)

/-- The memory behind the page of the first transaction, before another page is allocated. -/
def firstHeap (page : Nat → Page) : Heap where
  page
  mem := firstMem storage
  storage
  areaCount := 1
  txnId := 1
  startTxnId := 0

theorem firstPage_bounds :
    storage.area 0 < firstPage storage ∧ firstPage storage < storage.area 0 + AREA_SIZE := by
  change (storage.area 0 : Nat) < storage.area 0 + AREA_HEADER_SIZE + DB_HEADER_SIZE ∧
    storage.area 0 + AREA_HEADER_SIZE + DB_HEADER_SIZE < storage.area 0 + AREA_SIZE
  simp only [AREA_SIZE, AREA_HEADER_SIZE, DB_HEADER_SIZE]
  omega

theorem uncarved_firstMem {a : Nat} (ha : (firstMem storage).Uncarved a) :
    firstPage storage < a ∧ a < storage.area 0 + AREA_SIZE := by
  rcases ha with ⟨h1, h2⟩ | ⟨-, h2⟩
  . have hpos := (MemManager.pageSize_pos txn_slot_lt).1
    exact ⟨Nat.lt_of_lt_of_le (Nat.lt_add_of_pos_right hpos) h1, h2⟩
  . exact absurd h2 (Nat.not_lt_zero a)

variable {page : Nat → Page}

theorem firstHeap_covers : (firstHeap storage page).Covers [firstPage storage] := by
  obtain ⟨hle, hlt⟩ := firstPage_bounds storage
  intro a ha
  rcases ha with ha | ⟨s, x, hx, -⟩ | ha
  . rw [List.mem_singleton.mp ha]
    exact ⟨0, Nat.one_pos, Nat.le_of_lt hle, hlt⟩
  . cases hx
  . obtain ⟨h1, h2⟩ := uncarved_firstMem storage ha
    exact ⟨0, Nat.one_pos, Nat.le_of_lt (Nat.lt_trans hle h1), h2⟩

theorem firstHeap_uses (hslot : ∀ a, (page a).slotId < PAGE_SIZES_COUNT) :
    (firstHeap storage page).Uses [firstPage storage] := by
  have hcovers : (firstHeap storage page).Covers [firstPage storage] := firstHeap_covers storage
  have hpos := Nat.zero_lt_of_lt (firstPage_bounds storage).1
  refine ⟨⟨fun _ => List.nodup_nil, ?_, ?_, ?_, ?_⟩, Nat.zero_le _, by simp, ?_, ?_, ?_⟩
  . intro s s' _ x hx
    cases hx
  . rintro a ⟨s, x, hx, -⟩
    cases hx
  . intro a ha
    refine ⟨?_, (hcovers a (Or.inr (Or.inr ha))).not_future⟩
    exact Nat.ne_of_gt (Nat.lt_trans hpos (uncarved_firstMem storage ha).1)
  . rintro a - - ⟨-, h2⟩
    exact Nat.not_lt_zero a h2
  . intro a ha
    rw [List.mem_singleton.mp ha]
    exact Nat.ne_of_gt hpos
  . intro a ha hav
    have hin := hcovers a (Or.inl ha)
    rw [List.mem_singleton.mp ha] at hav hin
    rcases hav with ⟨s, x, hx, -⟩ | hun | hfuture
    . cases hx
    . exact Nat.lt_irrefl _ (uncarved_firstMem storage hun).1
    . exact hin.not_future hfuture
  . intro a _
    exact hslot a

theorem create_eq {next : Nat} {mem : MemManager} {grown : Bool}
    (halloc : (firstMem storage).alloc TXN_SLOT 0 (storage.area 1) = (next, mem, grown)) :
    create storage =
      { txns := TransactionDB.create ⟨0, mem, 1 + grown.toNat⟩
        offset := fun n => if n = 0 then firstPage storage else next
        page := fun a =>
          if a = firstPage storage ∨ a = next then
            { (default : Page) with txnId := 1, slotId := TXN_SLOT }
          else default
        storage
        startTxnId := 0 } := by
  rw [create, halloc]

/-- The pages of the first transaction and of the next one are in use. -/
theorem firstHeap_next {next : Nat} {mem : MemManager} {grown : Bool}
    (hslot : ∀ a, (page a).slotId < PAGE_SIZES_COUNT)
    (halloc : (firstMem storage).alloc TXN_SLOT 0 (storage.area 1) = (next, mem, grown)) :
    let h : Heap := { firstHeap storage page with mem, areaCount := 1 + grown.toNat }
    h.Uses [firstPage storage, next] ∧ h.Covers [firstPage storage, next] := by
  intro h
  have hu₀ := firstHeap_uses storage hslot
  obtain ⟨a, h', heq, ha, -, -⟩ := Heap.allocSlot_allocates hu₀ txn_slot_lt
  have hcov : h'.Covers [a, firstPage storage] :=
    (firstHeap_covers storage).of_frame (Heap.allocSlot_works heq) ha.uses
      fun b hb hmem hav => Heap.allocSlot_frame hu₀ txn_slot_lt heq hb (hslot b) hmem hav
  have huses := ha.uses
  have halloc' : (firstHeap storage page).mem.alloc TXN_SLOT (firstHeap storage page).startTxnId
      ((firstHeap storage page).storage.area (firstHeap storage page).areaCount) =
        (next, mem, grown) := halloc
  rw [Heap.allocSlot, if_neg (Nat.not_le_of_lt txn_slot_lt), halloc'] at heq
  simp only [Except.ok.injEq, Prod.mk.injEq] at heq
  obtain ⟨rfl, rfl⟩ := heq
  have hperm := List.Perm.swap (firstPage storage) next []
  refine ⟨?_, fun b hb => ?_⟩
  . have hu := huses.perm hperm
    exact ⟨hu.sound, hu.recycle, hu.nodup, hu.ne_zero, hu.not_avail, fun b _ => hslot b⟩
  . exact hcov b (hb.imp_left hperm.mem_iff.mpr)

theorem create_good : (create storage).Good (fun _ => none) (fun _ => []) 0 := by
  obtain ⟨⟨next, mem, grown⟩, halloc⟩ :
      ∃ x, (firstMem storage).alloc TXN_SLOT 0 (storage.area 1) = x := ⟨_, rfl⟩
  let page : Nat → Page := fun a =>
    if a = firstPage storage ∨ a = next then
      { (default : Page) with txnId := 1, slotId := TXN_SLOT }
    else default
  let s : SnapshotDB :=
    { txns := TransactionDB.create ⟨0, mem, 1 + grown.toNat⟩
      offset := fun n => if n = 0 then firstPage storage else next
      page
      storage
      startTxnId := 0 }
  have hs : create storage = s := create_eq storage halloc
  have hslot : ∀ a, (page a).slotId < PAGE_SIZES_COUNT := by
    intro a
    simp only [page]
    split
    . exact txn_slot_lt
    . decide
  have hstamp : ∀ a, (page a).txnId ≤ 1 := by
    intro a
    simp only [page]
    split
    . exact Nat.le_refl 1
    . exact Nat.zero_le 1
  have hheap : s.heap 0 =
      { firstHeap storage page with mem, areaCount := 1 + grown.toNat } := rfl
  obtain ⟨huses, hcov⟩ := firstHeap_next storage hslot halloc
  have hheld : s.held 0 = [firstPage storage, next] := rfl
  have hpinned : ∀ q, s.Pinned q → q = 0 := by
    rintro q (hq | ⟨c, x, hx, -⟩)
    . exact hq
    . cases hx
  have hkept : ∀ q, s.Kept q → q = 0 := by
    rintro q (hq | hq)
    . exact hq
    . cases hq
  have hread : Trie.Read s.rd (s.root 0) none := by
    refine ⟨⟨?_, ?_, ?_⟩, rfl, ?_⟩
    . rintro t ⟨⟩
    . rintro t ⟨⟩
    . rintro t ⟨⟩
    . rintro b ⟨⟩
  rw [hs]
  refine ⟨(TransactionDB.inv_create _).pages,
    ⟨Nat.le_refl 0, Nat.le_refl 1, ?_, ?_, ?_, ?_, ?_, ?_⟩, ?_, ?_, ?_, hslot, ?_, ?_, ?_⟩
  . intro q hq
    rw [List.mem_singleton.mp hq]
    exact Nat.zero_lt_two
  . exact List.pairwise_singleton _ _
  . intro c x hx
    cases hx
  . exact List.mem_singleton.mpr rfl
  . intro p hp
    cases hp
  . intro p hp hmem
    rw [List.mem_singleton.mp hmem] at hp
    rcases hp with hp | hp
    . cases hp
    . cases hp
  . intro q hq
    rfl
  . intro q _
    exact Nat.zero_le _
  . intro b
    exact Nat.le_succ_of_le (hstamp b)
  . intro q hq
    rw [hkept q hq]
    exact Nat.le_refl _
  . intro q hq
    rw [hpinned q hq]
    refine ⟨hread, List.Forall₂.nil, ?_, ?_, ?_⟩
    . rintro b ⟨⟩
    . rintro b ⟨⟩
    . rintro q' - b ⟨⟩
  . intro q hq
    rw [hkept q hq]
    refine ⟨⟨?_, ?_⟩, rfl, List.Forall₂.nil, ?_⟩
    . rw [hheap, hheld]
      exact huses
    . rw [hheap]
      exact hread.valid
    . rw [hheap, hheld]
      exact hcov

end Create

/-- The versions have the maps `M` of the transactions. -/
structure Shows (s : SnapshotDB) (v : Versions (List (Key × Content)))
    (M : Nat → List (Key × Content)) : Prop where
  owner : v.owner = s.txns.txnCursorId
  committed : v.committed = M s.txns.readTxn
  length : v.seen.length = s.txns.cursors.length
  view : ∀ c, v.view c = (s.txns.cursor? c).map fun cur => M cur.txn

/-- What a call is for the versions, and what the others still read after it. -/
structure Follows (s : SnapshotDB) (T : Nat → Trie) (v : Versions (List (Key × Content)))
    (e : VersionEvent Edit) (s' : SnapshotDB) (T' : Nat → Trie) (M' : Nat → List (Key × Content)) :
    Prop where
  shows : ∃ v', v.step Edit.apply e = some v' ∧ s'.Shows v' M'
  others : ∀ c cur, e.reader ≠ some c → s.txns.cursor? c = some cur →
    s'.txns.cursor? c = some cur ∧ T' cur.txn = T cur.txn

variable {s s' : SnapshotDB} {T : Nat → Trie} {M : Nat → List (Key × Content)} {n : Nat}
  {v : Versions (List (Key × Content))} {c p : Nat} {cur : TxnCursor}

section Events

theorem Shows.of_same (hv : s.Shows v M) (hs : Same s s') : s'.Shows v M := by
  refine ⟨?_, ?_, ?_, fun c => ?_⟩
  . rw [hs.txnCursorId, hv.owner]
  . rw [hs.readTxn, hv.committed]
  . rw [hs.cursors, hv.length]
  . rw [TransactionDB.cursor?, hs.cursors]
    exact hv.view c

theorem Follows.of_same {e : VersionEvent Edit} (hv : s.Shows v M) (hs : Same s s')
    (hstep : v.step Edit.apply e = some v) : s.Follows T v e s' T M := by
  refine ⟨⟨v, hstep, hv.of_same hs⟩, fun c cur _ hc => ⟨?_, rfl⟩⟩
  rw [TransactionDB.cursor?, hs.cursors]
  exact hc

theorem Same.refl (s : SnapshotDB) : Same s s := ⟨rfl, rfl, rfl, rfl⟩

/-- Whoever has the lock has a transaction. -/
theorem Good.not_owner (hg : s.Good T M n) (ho : s.txns.owned c = none) :
    s.txns.txnCursorId ≠ some c := by
  intro hid
  rcases hg.pages.state with ⟨m, hclosed⟩ | ⟨c', p, own, hopen, -⟩
  . rw [hclosed.txnCursorId] at hid
    cases hid
  . have hcc : c' = c := Option.some.inj (hopen.txnCursorId.symm.trans hid)
    rw [hcc] at hopen
    rw [hopen.owned_eq] at ho
    cases ho

/-- The pages of the others. -/
theorem Good.others_ne (hg : s.Good T M n) (hopen : s.txns.Open c p cur) {c' : Nat}
    {x : TxnCursor} (hx : s.txns.cursor? c' = some x) (hne : c' ≠ c) : x.txn ≠ p := by
  intro heq
  have hown := (hg.pages.cursor c' x hx).active (heq ▸ hopen.activeTxn)
  exact hne (Option.some.inj (hopen.txnCursorId.symm.trans hown)).symm

theorem Shows.view_eq (hv : s.Shows v M) (hc : s.txns.cursor? c = some cur) :
    v.view c = some (M cur.txn) := by
  rw [hv.view, hc, Option.map_some]

theorem Shows.createCursor (hv : s.Shows v M) :
    s.Follows T v .create { s with txns := s.txns.createCursor } T M := by
  have hcursor := TransactionDB.cursor?_createCursor s.txns
  refine ⟨⟨{ v with seen := v.seen ++ [some v.committed] }, rfl, hv.owner, hv.committed, ?_,
    fun c => ?_⟩, fun c cur _ hc => ⟨?_, rfl⟩⟩
  . change (v.seen ++ [some v.committed]).length =
      (s.txns.cursors ++ [some (⟨s.txns.readTxn, false⟩ : TxnCursor)]).length
    rw [List.length_append, List.length_append, hv.length]
    rfl
  . rw [Versions.view_append, hcursor, hv.length, hv.committed]
    split
    . rfl
    . exact hv.view c
  . rw [hcursor, if_neg]
    . exact hc
    . -- a new cursor has no number yet
      rintro rfl
      rw [TransactionDB.cursor?, List.getElem?_eq_none (Nat.le_refl _)] at hc
      cases hc

theorem Shows.update (hg : s.Good T M n) (hn : n + 2 < Serial.HALF_RANGE) (hv : s.Shows v M)
    (hc : s.txns.cursor? c = some cur) :
    s.Follows T v (.update c) { s with txns := s.txns.update c cur } T M := by
  have hr := TransactionDB.recounts_update s.txns c cur
  have hcursor := hg.chained.cursor?_update hg.pages hn hc
  have hlt := Versions.lt_of_view (hv.view_eq hc)
  refine ⟨?_, fun c' x hne hx => ⟨?_, rfl⟩⟩
  . rw [Versions.step, hv.view_eq hc, Option.map_some]
    refine ⟨_, rfl, ?_⟩
    by_cases hown : v.owner = some c
    . have hactive : s.txns.activeTxn = some cur.txn := by
        cases ho : s.txns.owned c with
        | none => exact absurd (hv.owner.symm.trans hown) (hg.not_owner ho)
        | some o =>
          have hopen := (hg.pages.open_of_owned ho).1
          have hcur : o.2 = cur := Option.some.inj (hopen.cursor.symm.trans hc)
          rw [← hcur, hopen.txn]
          exact hopen.activeTxn
      rw [if_pos hown]
      refine ⟨hv.owner.trans hr.txnCursorId.symm, ?_, ?_, fun c' => ?_⟩
      . rw [hr.readTxn]
        exact hv.committed
      . rw [TransactionDB.length_update]
        exact hv.length
      . rw [hcursor, if_neg fun h => h.2 hactive]
        exact hv.view c'
    . have hactive : s.txns.activeTxn ≠ some cur.txn := by
        intro heq
        exact hown (hv.owner.trans ((hg.pages.cursor c cur hc).active heq))
      rw [if_neg hown]
      refine ⟨hv.owner.trans hr.txnCursorId.symm, ?_, ?_, fun c' => ?_⟩
      . rw [hr.readTxn]
        exact hv.committed
      . rw [TransactionDB.length_update, Versions.setView, List.length_set]
        exact hv.length
      . rw [Versions.view_setView hlt, hcursor, hv.committed]
        by_cases hcc : c' = c
        . rw [if_pos hcc, if_pos ⟨hcc, hactive⟩]
          rfl
        . rw [if_neg hcc, if_neg fun h => hcc h.1]
          exact hv.view c'
  . have hcc : c' ≠ c := fun heq => hne (congrArg some heq.symm)
    rw [hcursor, if_neg fun h => hcc h.1]
    exact hx

theorem Shows.start (hg : s.Good T M n) (hn : n + 3 < Serial.HALF_RANGE) (hv : s.Shows v M)
    (hstep : s.startTransaction c = some s') :
    ∃ T' M', s'.Good T' M' (n + 1) ∧ s.Follows T v (.start c) s' T' M' := by
  by_cases hown : s.txns.txnCursorId = some c
  . -- the cursor has a transaction already
    have hsame : s = s' ∧ ∃ cur, s.txns.cursor? c = some cur := by
      rw [startTransaction, Option.map_eq_some_iff] at hstep
      obtain ⟨txns, hstart, hstep⟩ := hstep
      rw [TransactionDB.start] at hstart
      split at hstart
      next => cases hstart
      next cur hc =>
        refine ⟨?_, cur, hc⟩
        split at hstep
        next =>
          rw [if_pos hown] at hstep
          exact hstep
        next => exact hstep
    obtain ⟨rfl, cur, hc⟩ := hsame
    refine ⟨T, M, hg.mono (Nat.le_succ n), Follows.of_same hv (Same.refl s) ?_⟩
    rw [Versions.step, hv.view_eq hc, Option.bind_some, if_pos (hv.owner.trans hown)]
  . obtain ⟨p, cur, hclosed, hc, -, hcore, hg'⟩ := hg.start hn hown hstep
    have hs := TransactionDB.startTxn_started hc hclosed.ne
    have hcursor : ∀ c', s'.txns.cursor? c' =
        if c' = c then some { cur with txn := p, useWal := false } else s.txns.cursor? c' :=
      fun c' => (TransactionDB.cursor?_of_core hcore c').trans (hs.cursor c')
    simp only [TransactionDB.core, Prod.mk.injEq] at hcore
    obtain ⟨-, hread, -, -, -, hid, -, hcursors⟩ := hcore
    have hne : ∀ c' x, s.txns.cursor? c' = some x → x.txn ≠ p := by
      intro c' x hx heq
      exact (hg.pages.cursor c' x hx).next (heq ▸ hclosed.nextTxnPage)
    have hlt := Versions.lt_of_view (hv.view_eq hc)
    refine ⟨_, _, hg', ?_, fun c' x hr hx => ⟨?_, ?_⟩⟩
    . rw [Versions.step, hv.view_eq hc, Option.bind_some, hv.owner, if_neg hown,
        hclosed.txnCursorId]
      refine ⟨_, rfl, ?_, ?_, ?_, fun c' => ?_⟩
      . exact (hid.trans hs.txnCursorId).symm
      . rw [hread, hs.readTxn, Function.update_of_ne (Ne.symm hclosed.ne)]
        exact hv.committed
      . rw [hcursors, hs.cursors, ← hv.length]
        exact List.length_set
      . have hview := Versions.view_setView hlt (some v.committed) c'
        refine hview.trans ?_
        rw [hcursor]
        split
        . rw [hv.committed, Option.map_some, Function.update_self]
        . rw [hv.view]
          cases hx : s.txns.cursor? c' with
          | none => rfl
          | some x => rw [Option.map_some, Option.map_some, Function.update_of_ne (hne c' x hx)]
    . rw [hcursor, if_neg fun heq => hr (congrArg some heq.symm)]
      exact hx
    . rw [Function.update_of_ne (hne c' x hx)]

theorem Shows.edit (hg : s.Good T M n) (hn : n + 2 < Serial.HALF_RANGE) (hv : s.Shows v M)
    {e : Edit} (hedit : ∀ k, e ≠ .nextTransaction k) (hok : s.editOk c e = true)
    (hstep : s.edit c e = some s') :
    ∃ T' M', s'.Good T' M' (n + 1) ∧ s.Follows T v (.change c e) s' T' M' := by
  cases ho : s.txns.owned c with
  | none =>
    rw [SnapshotDB.edit, ho] at hstep
    cases hstep
  | some o =>
    obtain ⟨p, cur⟩ := o
    have hopen := (hg.pages.open_of_owned ho).1
    obtain ⟨t', hg', hcore⟩ := hg.edit hn hopen hedit hok hstep
    have hcursor := TransactionDB.cursor?_of_core hcore
    simp only [TransactionDB.core, Prod.mk.injEq] at hcore
    obtain ⟨-, hread, -, -, -, hid, -, hcursors⟩ := hcore
    have hview : v.view c = some (M p) := by
      rw [hv.view_eq hopen.cursor, hopen.txn]
    have hlt := Versions.lt_of_view hview
    refine ⟨_, _, hg'.mono (Nat.le_succ n), ?_, fun c' x hr hx => ⟨?_, ?_⟩⟩
    . rw [Versions.step, if_pos (hv.owner.trans hopen.txnCursorId), hview, Option.map_some]
      refine ⟨_, rfl, ?_, ?_, ?_, fun c' => ?_⟩
      . exact hv.owner.trans hid.symm
      . rw [hread, Function.update_of_ne (Ne.symm hopen.ne)]
        exact hv.committed
      . rw [hcursors, ← hv.length]
        exact List.length_set
      . rw [Versions.view_setView hlt, hcursor]
        by_cases hcc : c' = c
        . rw [if_pos hcc, hcc, hopen.cursor, Option.map_some, hopen.txn, Function.update_self]
        . rw [if_neg hcc, hv.view]
          cases hx : s.txns.cursor? c' with
          | none => rfl
          | some x =>
            rw [Option.map_some, Option.map_some,
              Function.update_of_ne (hg.others_ne hopen hx hcc)]
    . rw [hcursor]
      exact hx
    . have hcc : c' ≠ c := fun heq => hr (congrArg some heq.symm)
      rw [Function.update_of_ne (hg.others_ne hopen hx hcc)]

theorem Shows.prepareCommit (hg : s.Good T M n) (hn : n + 2 < Serial.HALF_RANGE)
    (hv : s.Shows v M) : (s.prepareCommit c).Good T M n ∧ Same s (s.prepareCommit c) ∧
      s.Follows T v (.prepare c) (s.prepareCommit c) T M := by
  cases ho : s.txns.owned c with
  | none =>
    have heq : s.prepareCommit c = s := by rw [SnapshotDB.prepareCommit, ho]
    rw [heq]
    exact ⟨hg, Same.refl s, Follows.of_same hv (Same.refl s) rfl⟩
  | some o =>
    obtain ⟨hg', hsame, -⟩ := hg.prepareCommit hn (hg.pages.open_of_owned ho).1
    exact ⟨hg', hsame, Follows.of_same hv hsame rfl⟩

theorem Shows.commit (hg : s.Good T M n) (hn : n + 2 < Serial.HALF_RANGE) (hv : s.Shows v M) :
    (s.commit c).Good T M (n + 1) ∧ s.Follows T v (.commit c) (s.commit c) T M := by
  cases ho : s.txns.owned c with
  | none =>
    have hprep : s.prepareCommit c = s := by rw [SnapshotDB.prepareCommit, ho]
    have heq : s.commit c = s := by
      rw [SnapshotDB.commit, hprep, TransactionDB.commit, ho]
    rw [heq]
    refine ⟨hg.mono (Nat.le_succ n), Follows.of_same hv (Same.refl s) ?_⟩
    rw [Versions.step, Versions.commit, if_neg fun h => hg.not_owner ho (hv.owner.symm.trans h)]
  | some o =>
    obtain ⟨p, cur⟩ := o
    have hopen := (hg.pages.open_of_owned ho).1
    obtain ⟨hg₁, hsame, hprepared⟩ := hg.prepareCommit hn hopen
    have ho₁ : (s.prepareCommit c).txns.owned c = some (p, cur) := by
      rw [← ho, TransactionDB.owned, TransactionDB.owned, TransactionDB.cursor?,
        TransactionDB.cursor?, hsame.txnCursorId, hsame.activeTxn, hsame.cursors]
    have hopen₁ := (hg₁.pages.open_of_owned ho₁).1
    have hs := TransactionDB.commit_committed hopen₁ hprepared
    have hcursors : (s.commit c).txns.cursors = s.txns.cursors := hs.cursors.trans hsame.cursors
    refine ⟨hg₁.commit hn hopen₁ hprepared, ?_, fun c' x _ hx => ⟨?_, rfl⟩⟩
    . rw [Versions.step, Versions.commit, if_pos (hv.owner.trans hopen.txnCursorId)]
      refine ⟨_, rfl, ?_, ?_, ?_, fun c' => ?_⟩
      . exact hs.txnCursorId.symm
      . rw [hv.view_eq hopen.cursor, Option.getD_some, hopen.txn]
        exact congrArg M hs.readTxn.symm
      . rw [hcursors]
        exact hv.length
      . rw [TransactionDB.cursor?, hcursors]
        exact hv.view c'
    . rw [TransactionDB.cursor?, hcursors]
      exact hx

theorem Shows.rollback (hg : s.Good T M n) (hv : s.Shows v M) {st : Storage}
    (hstep : s.rollback c st = some s') :
    s'.Good T M (n + 1) ∧ s'.txns.txnCursorId ≠ some c ∧ s'.Shows (v.rollback c) M ∧
      ∀ c' x, c' ≠ c → s.txns.cursor? c' = some x → s'.txns.cursor? c' = some x := by
  cases ho : s.txns.owned c with
  | none =>
    rw [SnapshotDB.rollback, ho, Option.some.injEq] at hstep
    rw [← hstep, Versions.rollback, if_neg fun h => hg.not_owner ho (hv.owner.symm.trans h)]
    exact ⟨hg.mono (Nat.le_succ n), hg.not_owner ho, hv, fun c' x _ hx => hx⟩
  | some o =>
    obtain ⟨p, cur⟩ := o
    have hopen := (hg.pages.open_of_owned ho).1
    have hs := TransactionDB.rollback_rolledBack hopen
    rw [SnapshotDB.rollback, ho] at hstep
    dsimp only at hstep
    split at hstep
    next hagree =>
      rw [Option.some.injEq] at hstep
      have hlt := Versions.lt_of_view (hv.view_eq hopen.cursor)
      rw [← hstep, Versions.rollback, if_pos (hv.owner.trans hopen.txnCursorId)]
      refine ⟨hg.rollback hopen hagree, ?_, ⟨hs.txnCursorId.symm, ?_, ?_, fun c' => ?_⟩, ?_⟩
      . intro hid
        cases hs.txnCursorId.symm.trans hid
      . exact hv.committed.trans (congrArg M hs.readTxn.symm)
      . exact (List.length_set.trans hv.length).trans hs.cursors.symm
      . refine (Versions.view_setView hlt (some v.committed) c').trans ?_
        change _ = ((s.txns.rollback c).cursor? c').map fun cur => M cur.txn
        rw [hs.cursor]
        split
        . rw [hv.committed, Option.map_some]
        . exact hv.view c'
      . intro c' x hne hx
        refine (hs.cursor c').trans ?_
        rw [if_neg hne]
        exact hx
    next => cases hstep

theorem Shows.destroyCursor (hv : s.Shows v M)
    (hne : s.txns.txnCursorId ≠ some c) :
    ({ s with txns := s.txns.destroyCursor c } : SnapshotDB).Shows (v.setView c none) M ∧
      ∀ c' x, c' ≠ c → s.txns.cursor? c' = some x →
        (s.txns.destroyCursor c).cursor? c' = some x := by
  rw [TransactionDB.destroyCursor_of_ne hne]
  cases hc : s.txns.cursor? c with
  | none =>
    refine ⟨⟨hv.owner, hv.committed, ?_, fun c' => ?_⟩, fun c' x _ hx => hx⟩
    . rw [Versions.setView, List.length_set]
      exact hv.length
    . rw [Versions.view_setView_none]
      split
      next hcc =>
        rw [hcc]
        change none = (s.txns.cursor? c).map fun cur => M cur.txn
        rw [hc, Option.map_none]
      next => exact hv.view c'
  | some cur =>
    have hcursor := TransactionDB.cursor?_drop hc
    refine ⟨⟨hv.owner, hv.committed, ?_, fun c' => ?_⟩, fun c' x hcc hx => ?_⟩
    . exact (List.length_set.trans hv.length).trans List.length_set.symm
    . rw [Versions.view_setView_none, hcursor]
      split
      . rfl
      . exact hv.view c'
    . rw [hcursor, if_neg hcc]
      exact hx

theorem Shows.step (hg : s.Good T M n) (hn : n + 3 < Serial.HALF_RANGE) (hv : s.Shows v M)
    {e : SnapshotEvent} (hok : s.stepOk e = true) (hstep : s.step e = some s') :
    ∃ T' M', s'.Good T' M' (n + 1) ∧ s.Follows T v e.abstract s' T' M' := by
  have hn' : n + 2 < Serial.HALF_RANGE := Nat.lt_of_succ_lt hn
  cases e with
  | createCursor =>
    rw [← Option.some.inj hstep]
    exact ⟨T, M, hg.createCursor, hv.createCursor⟩
  | destroyCursor c st =>
    rw [SnapshotDB.step, Option.map_eq_some_iff] at hstep
    obtain ⟨s₁, hrollback, rfl⟩ := hstep
    obtain ⟨hg₁, hne, hv₁, hothers⟩ := hv.rollback hg hrollback
    obtain ⟨hv₂, hothers₂⟩ := hv₁.destroyCursor hne
    refine ⟨T, M, hg₁.dropCursor hne, ⟨_, rfl, hv₂⟩, fun c' x hr hx => ⟨?_, rfl⟩⟩
    have hcc : c' ≠ c := fun heq => hr (congrArg some heq.symm)
    exact hothers₂ c' x hcc (hothers c' x hcc hx)
  | update c =>
    rw [SnapshotDB.step, Option.map_eq_some_iff] at hstep
    obtain ⟨cur, hc, rfl⟩ := hstep
    exact ⟨T, M, hg.update hn' hc, hv.update hg hn' hc⟩
  | startTransaction c => exact hv.start hg hn hstep
  | value c key val => exact hv.edit hg hn' (by simp) hok hstep
  | remove c key => exact hv.edit hg hn' (by simp) hok hstep
  | prepareCommit c =>
    rw [← Option.some.inj hstep]
    obtain ⟨hg', -, hf⟩ := hv.prepareCommit hg hn' (c := c)
    exact ⟨T, M, hg'.mono (Nat.le_succ n), hf⟩
  | commit c =>
    rw [← Option.some.inj hstep]
    exact ⟨T, M, hv.commit hg hn'⟩
  | rollback c st =>
    obtain ⟨hg', -, hv', hothers⟩ := hv.rollback hg hstep
    refine ⟨T, M, hg', ⟨_, rfl, hv'⟩, fun c' x hr hx => ⟨?_, rfl⟩⟩
    exact hothers c' x (fun heq => hr (congrArg some heq.symm)) hx

end Events

section Runs

variable {es : List SnapshotEvent}

/-- Every run follows the versions, and leaves the others their tries. -/
theorem Shows.run (hg : s.Good T M n) (hv : s.Shows v M)
    (hn : n + es.length + 2 < Serial.HALF_RANGE) (hok : s.runOk es = true)
    (hrun : s.run es = some s') :
    ∃ T' M' v', s'.Good T' M' (n + es.length) ∧
      v.run Edit.apply (es.map SnapshotEvent.abstract) = some v' ∧ s'.Shows v' M' ∧
      ∀ c cur, (∀ e ∈ es, e.abstract.reader ≠ some c) → s.txns.cursor? c = some cur →
        s'.txns.cursor? c = some cur ∧ T' cur.txn = T cur.txn := by
  induction es generalizing s T M n v with
  | nil =>
    rw [← Option.some.inj hrun]
    exact ⟨T, M, v, hg, rfl, hv, fun c cur _ hc => ⟨hc, rfl⟩⟩
  | cons e es ih =>
    rw [SnapshotDB.run, Option.bind_eq_some_iff] at hrun
    obtain ⟨s₁, hstep, hrun⟩ := hrun
    rw [runOk, hstep, Option.all_some, Bool.and_eq_true] at hok
    rw [List.length_cons] at hn ⊢
    obtain ⟨T₁, M₁, hg₁, ⟨v₁, hvstep, hv₁⟩, hothers⟩ := hv.step hg (by omega) hok.1 hstep
    obtain ⟨T', M', v', hg', hvrun, hv', hothers'⟩ := ih hg₁ hv₁ (by omega) hok.2 hrun
    refine ⟨T', M', v', ?_, ?_, hv', fun c cur hes hc => ?_⟩
    . have heq : n + (es.length + 1) = n + 1 + es.length := by omega
      rw [heq]
      exact hg'
    . rw [List.map_cons, Versions.run, hvstep, Option.bind_some]
      exact hvrun
    . rw [List.forall_mem_cons] at hes
      obtain ⟨hc₁, htrie⟩ := hothers c cur hes.1 hc
      obtain ⟨hc', htrie'⟩ := hothers' c cur hes.2 hc₁
      exact ⟨hc', htrie'.trans htrie⟩

/-- What is read in the transaction on the page `q`: the map with its big values as references. -/
def Reads (s : SnapshotDB) (q : Nat) (m : List (Key × Content)) : Prop :=
  ∃ es, ReadsAs s.rd (s.root q) es ∧ Related (fun v w => ∃ n, v = storedValue n w) es m

/-- The database is what the versions say. -/
structure Refines (s : SnapshotDB) (v : Versions (List (Key × Content))) : Prop where
  owner : s.txns.txnCursorId = v.owner
  committed : s.Reads s.txns.readTxn v.committed
  cursor : ∀ c cur, s.txns.cursor? c = some cur → ∃ m, v.view c = some m ∧ s.Reads cur.txn m
  none : ∀ c, s.txns.cursor? c = none → v.view c = none

theorem Good.reads_cursor (hg : s.Good T M n) (hc : s.txns.cursor? c = some cur) :
    (T cur.txn).Read s.rd (s.root cur.txn) ∧
      Related (fun v w => ∃ n, v = storedValue n w) (T cur.txn).entries (M cur.txn) := by
  by_cases hactive : s.txns.activeTxn = some cur.txn
  . have hm := hg.memory cur.txn (Or.inr hactive)
    rw [hm.root]
    exact ⟨hm.stores.read, hm.map⟩
  . have hver := hg.version cur.txn (Or.inr ⟨c, cur, hc, rfl, hactive⟩)
    exact ⟨hver.read, hver.map⟩

theorem Shows.refines (hg : s.Good T M n) (hv : s.Shows v M) : s.Refines v := by
  refine ⟨hv.owner.symm, ?_, fun c cur hc => ⟨M cur.txn, hv.view_eq hc, ?_⟩, fun c hc => ?_⟩
  . have hver := hg.version _ s.pinned_read
    rw [hv.committed]
    exact ⟨_, ⟨_, hver.read, rfl⟩, hver.map⟩
  . obtain ⟨hread, hmap⟩ := hg.reads_cursor hc
    exact ⟨_, ⟨_, hread, rfl⟩, hmap⟩
  . rw [hv.view, hc, Option.map_none]

theorem shows_create (storage : Storage) :
    (create storage).Shows (Versions.init []) fun _ => [] := by
  obtain ⟨⟨next, mem, grown⟩, halloc⟩ :
      ∃ x, (firstMem storage).alloc TXN_SLOT 0 (storage.area 1) = x := ⟨_, rfl⟩
  have htxns : (create storage).txns = TransactionDB.create ⟨0, mem, 1 + grown.toNat⟩ := by
    rw [create_eq storage halloc]
  refine ⟨?_, rfl, ?_, fun c => ?_⟩
  . rw [htxns]
    rfl
  . rw [htxns]
    rfl
  . rw [htxns]
    rfl

/-- Two readers, and a map that the first one has written. -/
def twoReaders : List SnapshotEvent :=
  [.createCursor, .createCursor, .startTransaction 0, .value 0 [0x61] ⟨[1], []⟩,
    .value 0 [0x62] ⟨[2], []⟩, .commit 0, .update 1]

/-- What others do afterwards: the old pages are freed and used again. -/
def othersWrite : List SnapshotEvent :=
  [.startTransaction 0, .remove 0 [0x61], .commit 0, .createCursor, .startTransaction 2,
    .value 2 [0x61] ⟨[9], []⟩, .prepareCommit 2, .commit 2, .startTransaction 0,
    .value 0 [0x63] ⟨[3], []⟩, .rollback 0 Edit.areas, .destroyCursor 2 Edit.areas,
    .startTransaction 0, .value 0 [0x62] ⟨[7], []⟩]

end Runs

end SnapshotDB
end Leaves
