import Leaves.Db.AreaLists

/-!
Every area of the file has one owner: a list of the pool or a list of one database. The areas of a
transaction that is under way are behind the committed tails.
-/

namespace Leaves

/-- The areas of a database: those up to the committed tails and those behind them. -/
structure DbBooks where
  single : List Nat
  newSingle : List Nat
  multi : List Nat
  newMulti : List Nat

namespace DbBooks

def all (b : DbBooks) : List Nat := b.single ++ b.newSingle ++ (b.multi ++ b.newMulti)

end DbBooks

namespace AreaFile

variable {f : AreaFile} {singles multis used : List Nat} {a b : Nat}

theorem Holds.notMem_pool (h : f.Holds singles multis used) (ha : a ∈ used) :
    a ∉ singles ++ multis := by
  intro hmem
  exact (List.nodup_append.mp h.nodup).2.2 a hmem a ha rfl

theorem Holds.setNext_used (h : f.Holds singles multis used) (ha : a ∈ used) (b : Nat) :
    (f.setNext a b).Holds singles multis used :=
  h.setNext (h.notMem_pool ha) b

@[simp]
theorem next_setNext : (f.setNext a b).areas.next = Function.update f.areas.next a b :=
  Areas.next_setNext

@[simp]
theorem size_setNext : (f.setNext a b).areas.size = f.areas.size :=
  Areas.size_setNext

end AreaFile

namespace DbAreas

/-- The tails that are in use. -/
def tails (d : DbAreas) : TxnTails := d.activeTxn.getD d.readTxn

/-- The lists of the database are these areas. Outside of a transaction they end at the committed
tails. -/
structure Owns (d : DbAreas) (m : Areas) (b : DbBooks) : Prop where
  single : Chain m.next 0 d.headSingle d.tails.single (b.single ++ b.newSingle)
  multi : Chain m.next 0 d.headMulti d.tails.multi (b.multi ++ b.newMulti)
  readSingle : d.readTxn.single = b.single.getLastD 0
  readMulti : d.readTxn.multi = b.multi.getLastD 0
  closed : d.activeTxn = none → b.newSingle = [] ∧ b.newMulti = []
  ones : ∀ a ∈ b.single ++ b.newSingle, m.size a = AREA_SIZE

/-- The page of the next transaction has the tails it needs. -/
structure Ready (d : DbAreas) (b : DbBooks) : Prop where
  nonempty : b.single ≠ []
  inactive : d.activeTxn = none → d.prepared = false ∧ d.nextTxnPage = some d.readTxn
  prepared : d.prepared = true → d.nextTxnPage = d.activeTxn

structure Ok (d : DbAreas) (m : Areas) (b : DbBooks) : Prop extends d.Owns m b, d.Ready b

/-- An operation on one database keeps the lists well formed and does not touch the areas of others.
-/
def Keeps (f : AreaFile) (d : DbAreas) (f' : AreaFile) (d' : DbAreas) : Prop :=
  ∀ b others singles multis, f.Holds singles multis (b.all ++ others) → d.Ok f.areas b →
    ∃ b' singles' multis', f'.Holds singles' multis' (b'.all ++ others) ∧ d'.Ok f'.areas b' ∧
      ∀ a ∈ others, f'.areas.head a = f.areas.head a

variable {f f' f'' : AreaFile} {d d' d'' : DbAreas} {m m' : Areas} {b : DbBooks}

theorem Owns.congr (h : d.Owns m b) (heq : ∀ a ∈ b.all, m'.head a = m.head a) : d.Owns m' b := by
  unfold DbBooks.all at heq
  constructor
  . apply h.single.congr
    intro a ha
    unfold Areas.next
    rw [heq a (List.mem_append_left _ ha)]
  . apply h.multi.congr
    intro a ha
    unfold Areas.next
    rw [heq a (List.mem_append_right _ ha)]
  . exact h.readSingle
  . exact h.readMulti
  . exact h.closed
  . intro a ha
    rw [← h.ones a ha]
    unfold Areas.size
    rw [heq a (List.mem_append_left _ ha)]

theorem Keeps.refl : Keeps f d f d := by
  intro b others singles multis hholds hok
  exact ⟨b, singles, multis, hholds, hok, fun _ _ => rfl⟩

theorem Keeps.trans (h : Keeps f d f' d') (h' : Keeps f' d' f'' d'') : Keeps f d f'' d'' := by
  intro b others singles multis hholds hok
  obtain ⟨b', singles', multis', hholds', hok', hsame⟩ := h b others singles multis hholds hok
  obtain ⟨b'', singles'', multis'', hholds'', hok'', hsame'⟩ :=
    h' b' others singles' multis' hholds' hok'
  refine ⟨b'', singles'', multis'', hholds'', hok'', ?_⟩
  intro a ha
  rw [hsame' a ha, hsame a ha]

theorem startTransaction_keeps : Keeps f d f d.startTransaction := by
  unfold startTransaction
  split
  next => exact Keeps.refl
  next hactive =>
    intro b others singles multis hholds hok
    refine ⟨b, singles, multis, hholds, ?_, fun _ _ => rfl⟩
    have hready := hok.inactive hactive
    have htails : d.tails = d.readTxn := by
      rw [tails, hactive]
      rfl
    have hsingle := hok.single
    have hmulti := hok.multi
    have hclosed := hok.closed hactive
    rw [htails] at hsingle hmulti
    have htails' : tails { d with activeTxn := d.nextTxnPage, nextTxnPage := none } =
        d.readTxn := by
      rw [tails, hready.2]
      rfl
    refine ⟨⟨?_, ?_, hok.readSingle, hok.readMulti, fun _ => hclosed, hok.ones⟩,
      ⟨hok.nonempty, ?_, ?_⟩⟩
    . rw [htails']
      exact hsingle
    . rw [htails']
      exact hmulti
    . intro hnone
      simp only [hready.2] at hnone
      cases hnone
    . intro hprepared
      rw [hready.1] at hprepared
      cases hprepared

theorem allocSingleArea_keeps (hprepared : d.prepared = false) (hfits : f.SingleFits)
    (h : d.allocSingleArea f = some (f', d')) : Keeps f d f' d' := by
  unfold allocSingleArea at h
  split at h
  next => cases h
  next txn hactive =>
    split at h
    next => cases h
    next g a halloc =>
      simp only [Option.some.injEq, Prod.mk.injEq] at h
      obtain ⟨rfl, rfl⟩ := h
      intro b others singles multis hholds hok
      obtain ⟨⟨singles', multis', hhands⟩, hsize, hnext, hsame⟩ :=
        hholds.allocSingleArea hfits halloc
      have htxn : d.tails = txn := by
        rw [tails, hactive]
        rfl
      have hnodup := (List.nodup_append.mp hholds.nodup).2.1
      have hlist := (List.nodup_append.mp (List.nodup_append.mp hnodup).1).1
      have hfresh := hhands.used_notMem.2
      have howns := hok.toOwns.congr fun c hc => hsame c (List.mem_append_left _ hc)
      have hsingle := howns.single
      have hmulti := howns.multi
      rw [htxn] at hsingle hmulti
      have hne : b.single ++ b.newSingle ≠ [] := by
        simp [hok.nonempty]
      have hlast := hsingle.last_mem hne
      have hlast' : txn.single ∈ b.all ++ others := by
        unfold DbBooks.all
        exact List.mem_append_left _ (List.mem_append_left _ hlast)
      have hsnoc := hsingle.snoc hne hlist (fun hmem => hfresh (by
        unfold DbBooks.all
        exact List.mem_append_left _ (List.mem_append_left _ hmem))) hnext
      have hperm : (DbBooks.all { b with newSingle := b.newSingle ++ [a] } ++ others).Perm
          (a :: (b.all ++ others)) := by
        rw [List.perm_iff_count]
        intro c
        simp only [DbBooks.all, List.count_append, List.count_cons, List.count_nil]
        omega
      refine ⟨{ b with newSingle := b.newSingle ++ [a] }, singles', multis', ?_, ?_, ?_⟩
      . exact (hhands.setNext_used (List.mem_cons_of_mem a hlast') a).perm hperm
      . refine ⟨⟨?_, ?_, hok.readSingle, hok.readMulti,
          fun hnone => absurd hnone (Option.some_ne_none _), ?_⟩,
          ⟨hok.nonempty, fun hnone => absurd hnone (Option.some_ne_none _), ?_⟩⟩
        . rw [AreaFile.next_setNext, ← List.append_assoc]
          exact hsnoc
        . rw [AreaFile.next_setNext]
          apply Chain.update hmulti
          intro hmem
          unfold DbBooks.all at hnodup
          exact (List.nodup_append.mp (List.nodup_append.mp hnodup).1).2.2 _ hlast _ hmem rfl
        . intro c hc
          rw [AreaFile.size_setNext]
          simp only [← List.append_assoc] at hc
          rw [List.mem_append, List.mem_singleton] at hc
          rcases hc with hc | rfl
          . exact howns.ones c hc
          . exact hsize
        . intro htrue
          rw [hprepared] at htrue
          cases htrue
      . intro c hc
        rw [← hsame c (List.mem_append_right _ hc)]
        apply Areas.setNext_of_ne
        rintro rfl
        unfold DbBooks.all at hnodup
        exact (List.nodup_append.mp hnodup).2.2 _ (List.mem_append_left _ hlast) _ hc rfl

theorem allocMultiArea_keeps {size : Nat} (hpos : 0 < size) (hprepared : d.prepared = false)
    (hfits : f.MultiFits size) (h : d.allocMultiArea f size = some (f', d')) :
    Keeps f d f' d' := by
  unfold allocMultiArea at h
  split at h
  next => cases h
  next txn hactive =>
    split at h
    next => cases h
    next g a halloc =>
      intro b others singles multis hholds hok
      obtain ⟨⟨singles', multis', hhands⟩, hsize, hnext, hsame⟩ :=
        hholds.allocMultiArea hpos hfits halloc
      have htxn : d.tails = txn := by
        rw [tails, hactive]
        rfl
      have hnodup := (List.nodup_append.mp hholds.nodup).2.1
      have hnull := hholds.null_notMem
      have hlists := (List.nodup_append.mp hnodup).1
      have hlist := (List.nodup_append.mp hlists).2.1
      have hfresh := hhands.used_notMem.2
      have howns := hok.toOwns.congr fun c hc => hsame c (List.mem_append_left _ hc)
      have hsingle := howns.single
      have hmulti := howns.multi
      rw [htxn] at hsingle hmulti
      have hnull' : 0 ∉ b.multi ++ b.newMulti := by
        intro hmem
        apply hnull
        unfold DbBooks.all
        exact List.mem_append_right _ (List.mem_append_left _ (List.mem_append_right _ hmem))
      have hperm : (DbBooks.all { b with newMulti := b.newMulti ++ [a] } ++ others).Perm
          (a :: (b.all ++ others)) := by
        rw [List.perm_iff_count]
        intro c
        simp only [DbBooks.all, List.count_append, List.count_cons, List.count_nil]
        omega
      split at h
      next hzero =>
        simp only [Option.some.injEq, Prod.mk.injEq] at h
        obtain ⟨rfl, rfl⟩ := h
        have hnil := (hmulti.last_null hnull').mp hzero
        refine ⟨{ b with newMulti := b.newMulti ++ [a] }, singles', multis', hhands.perm hperm,
          ?_, fun c hc => hsame c (List.mem_append_right _ hc)⟩
        refine ⟨⟨hsingle, ?_, hok.readSingle, hok.readMulti,
          fun hnone => absurd hnone (Option.some_ne_none _), howns.ones⟩,
          ⟨hok.nonempty, fun hnone => absurd hnone (Option.some_ne_none _), ?_⟩⟩
        . rw [← List.append_assoc, hnil]
          exact Chain.single hnext
        . intro htrue
          rw [hprepared] at htrue
          cases htrue
      next hzero =>
        simp only [Option.some.injEq, Prod.mk.injEq] at h
        obtain ⟨rfl, rfl⟩ := h
        have hne : b.multi ++ b.newMulti ≠ [] := by
          intro hnil
          exact hzero ((hmulti.last_null hnull').mpr hnil)
        have hlast := hmulti.last_mem hne
        have hlast' : txn.multi ∈ b.all ++ others := by
          unfold DbBooks.all
          exact List.mem_append_left _ (List.mem_append_right _ hlast)
        have hsnoc := hmulti.snoc hne hlist (fun hmem => hfresh (by
          unfold DbBooks.all
          exact List.mem_append_left _ (List.mem_append_right _ hmem))) hnext
        refine ⟨{ b with newMulti := b.newMulti ++ [a] }, singles', multis', ?_, ?_, ?_⟩
        . exact (hhands.setNext_used (List.mem_cons_of_mem a hlast') a).perm hperm
        . refine ⟨⟨?_, ?_, hok.readSingle, hok.readMulti,
            fun hnone => absurd hnone (Option.some_ne_none _), ?_⟩,
            ⟨hok.nonempty, fun hnone => absurd hnone (Option.some_ne_none _), ?_⟩⟩
          . rw [AreaFile.next_setNext]
            apply Chain.update hsingle
            intro hmem
            exact (List.nodup_append.mp hlists).2.2 _ hmem _ hlast rfl
          . rw [AreaFile.next_setNext, ← List.append_assoc]
            exact hsnoc
          . rw [AreaFile.size_setNext]
            exact howns.ones
          . intro htrue
            rw [hprepared] at htrue
            cases htrue
        . intro c hc
          rw [← hsame c (List.mem_append_right _ hc)]
          apply Areas.setNext_of_ne
          rintro rfl
          exact (List.nodup_append.mp hnodup).2.2 _ (List.mem_append_right _ hlast) _ hc rfl

theorem allocSingleArea_active (h : d.allocSingleArea f = some (f', d')) :
    d'.activeTxn ≠ none := by
  unfold allocSingleArea at h
  split at h
  next => cases h
  next =>
    split at h
    next => cases h
    next =>
      simp only [Option.some.injEq, Prod.mk.injEq] at h
      obtain ⟨-, rfl⟩ := h
      exact Option.some_ne_none _

theorem prepareCommit_prepared {grows : Bool} (h : d.prepareCommit f grows = some (f', d'))
    (hactive : d'.activeTxn ≠ none) : d'.prepared = true := by
  unfold prepareCommit at h
  split at h
  next hnone =>
    cases h
    exact absurd hnone hactive
  next =>
    split at h
    next hprepared =>
      cases h
      exact hprepared
    next =>
      split at h
      next => cases h
      next =>
        simp only [Option.some.injEq, Prod.mk.injEq] at h
        obtain ⟨-, rfl⟩ := h
        rfl

theorem prepareCommit_keeps {grows : Bool} (hfits : grows = true → f.SingleFits)
    (h : d.prepareCommit f grows = some (f', d')) : Keeps f d f' d' := by
  unfold prepareCommit at h
  split at h
  next =>
    cases h
    exact Keeps.refl
  next txn hactive =>
    split at h
    next =>
      cases h
      exact Keeps.refl
    next hprepared =>
      split at h
      next => cases h
      next g e hgrow =>
        simp only [Option.some.injEq, Prod.mk.injEq] at h
        obtain ⟨rfl, rfl⟩ := h
        have hkeeps : Keeps f d g e := by
          split at hgrow
          next hgrows =>
            exact allocSingleArea_keeps (by simpa using hprepared) (hfits hgrows) hgrow
          next =>
            cases hgrow
            exact Keeps.refl
        have hactive' : e.activeTxn ≠ none := by
          split at hgrow
          next => exact allocSingleArea_active hgrow
          next =>
            cases hgrow
            simp [hactive]
        apply hkeeps.trans
        intro b others singles multis hholds hok
        refine ⟨b, singles, multis, hholds, ?_, fun _ _ => rfl⟩
        exact ⟨⟨hok.single, hok.multi, hok.readSingle, hok.readMulti, hok.closed, hok.ones⟩,
          ⟨hok.nonempty, fun hnone => absurd hnone hactive', fun _ => rfl⟩⟩

/-- The areas of the transaction stay. -/
theorem committed_keeps {txn : TxnTails} (hactive : d.activeTxn = some txn)
    (hprepared : d.prepared = true) :
    Keeps f d f { d with readTxn := txn, activeTxn := none, prepared := false } := by
  intro b others singles multis hholds hok
  have htxn : d.tails = txn := by
    rw [tails, hactive]
    rfl
  have hpage := hok.prepared hprepared
  have hsingle := hok.single
  have hmulti := hok.multi
  rw [htxn] at hsingle hmulti
  refine ⟨⟨b.single ++ b.newSingle, [], b.multi ++ b.newMulti, []⟩, singles, multis, ?_, ?_,
    fun _ _ => rfl⟩
  . simpa [DbBooks.all] using hholds
  . refine ⟨⟨?_, ?_, hsingle.last_eq, hmulti.last_eq, fun _ => ⟨rfl, rfl⟩, ?_⟩,
      ⟨?_, fun _ => ⟨rfl, ?_⟩, fun hfalse => absurd hfalse Bool.false_ne_true⟩⟩
    . simpa [tails] using hsingle
    . simpa [tails] using hmulti
    . simpa using hok.ones
    . simp [hok.nonempty]
    . simp only
      rw [hpage, hactive]

theorem commit_keeps {grows : Bool} (hfits : grows = true → f.SingleFits)
    (hrollback : Keeps f d (d.rollback f).1 (d.rollback f).2) :
    Keeps f d (d.commit f grows).1 (d.commit f grows).2 := by
  unfold commit
  split
  next => exact hrollback
  next g e hprepare =>
    have hkeeps := prepareCommit_keeps hfits hprepare
    split
    next => exact hkeeps
    next txn hactive =>
      have hprepared := prepareCommit_prepared hprepare (by simp [hactive])
      exact hkeeps.trans (committed_keeps hactive hprepared)

/-- A list of a database has been cut back to `l`, what was behind has gone to the pool. -/
structure Cut (f f' : AreaFile) (first : Nat) (l others : List Nat) : Prop where
  holds : ∃ singles multis, f'.Holds singles multis (l ++ others)
  chain : Chain f'.areas.next 0 first (l.getLastD 0) l
  size : ∀ a ∈ l ++ others, f'.areas.size a = f.areas.size a
  same : ∀ a ∈ others, f'.areas.head a = f.areas.head a

variable {l new others singles multis : List Nat} {first stop a : Nat}

/-- The last area that stays is unlinked from those that went. -/
theorem Cut.of_unlinked (hholds : f'.Holds singles multis ((l ++ [a]) ++ others))
    (hchain : Chain f.areas.next 0 first stop ((l ++ [a]) ++ new))
    (hsame : ∀ b ∈ (l ++ [a]) ++ others, f'.areas.head b = f.areas.head b) :
    Cut f (f'.setNext a 0) first (l ++ [a]) others := by
  have hnodup := (List.nodup_append.mp hholds.nodup).2.1
  rw [List.nodup_append] at hnodup
  have hmem : a ∉ l := by
    intro hmem
    exact (List.nodup_append.mp hnodup.1).2.2 a hmem a (by simp) rfl
  have hnext : ∀ b ∈ l ++ [a], f'.areas.next b = f.areas.next b := by
    intro b hb
    unfold Areas.next
    rw [hsame b (List.mem_append_left _ hb)]
  constructor
  . exact ⟨singles, multis, hholds.setNext_used (by simp) 0⟩
  . rw [AreaFile.next_setNext, List.getLastD_concat]
    have hfront := hchain.front hmem
    apply hfront.congr
    intro b hb
    by_cases hba : b = a
    . rw [hba, Function.update_self, Function.update_self]
    . rw [Function.update_of_ne hba, Function.update_of_ne hba]
      exact hnext b hb
  . intro b hb
    rw [AreaFile.size_setNext]
    unfold Areas.size
    rw [hsame b hb]
  . intro b hb
    rw [← hsame b (List.mem_append_right _ hb)]
    apply Areas.setNext_of_ne
    rintro rfl
    exact hnodup.2.2 b (by simp) b hb rfl

theorem Cut.refl (hholds : f.Holds singles multis (l ++ others))
    (hchain : Chain f.areas.next 0 first stop l) : Cut f f first l others := by
  refine ⟨⟨singles, multis, hholds⟩, ?_, fun _ _ => rfl, fun _ _ => rfl⟩
  rw [← hchain.last_eq]
  exact hchain

theorem returnSingleRange_cut (hholds : f.Holds singles multis (l ++ new ++ others))
    (hchain : Chain f.areas.next 0 first stop (l ++ new)) (hne : l ≠ [])
    (hones : ∀ a ∈ l ++ new, f.areas.size a = AREA_SIZE) :
    Cut f (returnSingleRange f (l.getLastD 0) stop) first l others := by
  have hnull := hholds.null_notMem
  have hnodup := (List.nodup_append.mp hholds.nodup).2.1
  obtain rfl | ⟨l, a, rfl⟩ := List.eq_nil_or_concat' l
  . exact absurd rfl hne
  . rw [List.getLastD_concat]
    unfold returnSingleRange
    by_cases hnew : new = []
    . subst hnew
      have hstop : stop = a := by
        rw [hchain.last_eq, List.append_nil, List.getLastD_concat]
      rw [if_neg fun h => h.2.2 hstop.symm]
      rw [List.append_nil] at hholds hchain
      exact Cut.refl hholds hchain
    . have hrest := hchain.rest hnew
      have hlast := hrest.last_mem hnew
      have hcond : a ≠ 0 ∧ stop ≠ 0 ∧ a ≠ stop := by
        refine ⟨?_, ?_, ?_⟩
        . rintro rfl
          simp at hnull
        . rintro rfl
          simp [hlast] at hnull
        . rintro rfl
          exact (List.nodup_append.mp (List.nodup_append.mp hnodup).1).2.2 a (by simp) a hlast rfl
      rw [if_pos hcond]
      have hperm : (new ++ ((l ++ [a]) ++ others)).Perm ((l ++ [a]) ++ new ++ others) := by
        rw [List.perm_iff_count]
        intro b
        simp only [List.count_append]
        omega
      obtain ⟨hholds', hsame⟩ := (hholds.perm hperm).returnSingleAreas hrest fun b hb =>
        hones b (List.mem_append_right _ hb)
      exact Cut.of_unlinked hholds' hchain fun b hb => hsame b (List.mem_append_right _ hb)

theorem returnMultiRange_cut (hholds : f.Holds singles multis (l ++ new ++ others))
    (hchain : Chain f.areas.next 0 first stop (l ++ new)) :
    Cut f (returnMultiRange f first (l.getLastD 0) stop).1
      (returnMultiRange f first (l.getLastD 0) stop).2 l others := by
  have hnull := hholds.null_notMem
  have hnodup := (List.nodup_append.mp hholds.nodup).2.1
  have hperm : (new ++ (l ++ others)).Perm (l ++ new ++ others) := by
    rw [List.perm_iff_count]
    intro b
    simp only [List.count_append]
    omega
  unfold returnMultiRange
  by_cases hnew : new = []
  . subst hnew
    rw [List.append_nil] at hholds hchain
    have hstop : ¬(stop ≠ 0 ∧ l.getLastD 0 ≠ stop) := by
      rw [hchain.last_eq]
      simp
    rw [if_neg hstop]
    exact Cut.refl hholds hchain
  . have hlast : stop ∈ l ++ new := hchain.last_mem (by simp [hnew])
    have hstop : stop ≠ 0 := by
      rintro rfl
      rw [List.mem_append] at hlast
      exact hnull (by simp only [List.mem_append]; tauto)
    obtain rfl | ⟨l, a, rfl⟩ := List.eq_nil_or_concat' l
    . rw [List.getLastD_nil, if_pos ⟨hstop, hstop.symm⟩, if_pos rfl]
      obtain ⟨hholds', hsame⟩ := (hholds.perm hperm).returnMultiAreas hchain
      refine ⟨⟨_, _, hholds'⟩, Chain.nil, ?_, fun b hb => hsame b (List.mem_append_right _ hb)⟩
      intro b hb
      unfold Areas.size
      rw [hsame b (List.mem_append_right _ hb)]
    . have hrest := hchain.rest hnew
      have hmem := hrest.last_mem hnew
      have hpos : a ≠ 0 := by
        rintro rfl
        simp at hnull
      have hdiff : a ≠ stop := by
        rintro rfl
        exact (List.nodup_append.mp (List.nodup_append.mp hnodup).1).2.2 a (by simp) a hmem rfl
      rw [List.getLastD_concat, if_pos ⟨hstop, hdiff⟩, if_neg hpos]
      obtain ⟨hholds', hsame⟩ := (hholds.perm hperm).returnMultiAreas hrest
      exact Cut.of_unlinked hholds' hchain fun b hb => hsame b (List.mem_append_right _ hb)

theorem rollback_keeps : Keeps f d (d.rollback f).1 (d.rollback f).2 := by
  unfold rollback
  split
  next => exact Keeps.refl
  next txn hactive =>
    intro b others singles multis hholds hok
    have htxn : d.tails = txn := by
      rw [tails, hactive]
      rfl
    have hsingle := hok.single
    have hmulti := hok.multi
    rw [htxn] at hsingle hmulti
    have hperm : (b.single ++ b.newSingle ++ (b.multi ++ b.newMulti ++ others)).Perm
        (b.all ++ others) := by
      unfold DbBooks.all
      rw [List.perm_iff_count]
      intro c
      simp only [List.count_append]
      omega
    have hcut := returnSingleRange_cut (hholds.perm hperm) hsingle hok.nonempty hok.ones
    rw [← hok.readSingle] at hcut
    generalize returnSingleRange f d.readTxn.single txn.single = g at hcut
    obtain ⟨⟨singles', multis', hholds'⟩, hsingle', hsize, hsame⟩ := hcut
    have hmulti' : Chain g.areas.next 0 d.headMulti txn.multi (b.multi ++ b.newMulti) := by
      apply hmulti.congr
      intro c hc
      unfold Areas.next
      rw [hsame c (List.mem_append_left _ hc)]
    have hperm' : (b.multi ++ b.newMulti ++ (b.single ++ others)).Perm
        (b.single ++ (b.multi ++ b.newMulti ++ others)) := by
      rw [List.perm_iff_count]
      intro c
      simp only [List.count_append]
      omega
    have hcut' := returnMultiRange_cut (hholds'.perm hperm') hmulti'
    rw [← hok.readMulti] at hcut'
    dsimp only
    generalize returnMultiRange g d.headMulti d.readTxn.multi txn.multi = r at hcut'
    obtain ⟨⟨singles'', multis'', hholds''⟩, hmulti'', -, hsame'⟩ := hcut'
    refine ⟨⟨b.single, [], b.multi, []⟩, singles'', multis'', ?_, ?_, ?_⟩
    . apply hholds''.perm
      simp only [DbBooks.all, List.append_nil]
      rw [List.perm_iff_count]
      intro c
      simp only [List.count_append]
      omega
    . refine ⟨⟨?_, ?_, hok.readSingle, hok.readMulti, fun _ => ⟨rfl, rfl⟩, ?_⟩,
        ⟨hok.nonempty, fun _ => ⟨rfl, rfl⟩, fun hfalse => absurd hfalse Bool.false_ne_true⟩⟩
      . simp only [tails, Option.getD_none, List.append_nil]
        rw [hok.readSingle]
        apply hsingle'.congr
        intro c hc
        unfold Areas.next
        rw [hsame' c (List.mem_append_left _ hc)]
      . simp only [tails, Option.getD_none, List.append_nil]
        rw [hok.readMulti]
        exact hmulti''
      . intro c hc
        rw [List.append_nil] at hc
        rw [← hok.ones c (List.mem_append_left _ hc), ← hsize c (List.mem_append_left _ hc)]
        unfold Areas.size
        rw [hsame' c (List.mem_append_left _ hc)]
    . intro c hc
      rw [hsame' c (List.mem_append_right _ hc), hsame c (List.mem_append_right _ hc)]

/-- A whole list goes back, if there is one. -/
theorem returnSingle_all (hholds : f.Holds singles multis (l ++ others))
    (hchain : Chain f.areas.next 0 first stop l) (hones : ∀ a ∈ l, f.areas.size a = AREA_SIZE) :
    (if first ≠ 0 ∧ stop ≠ 0 then f.returnSingleAreas first stop else f).Holds (singles ++ l) multis
        others ∧
      ∀ a ∈ others, (if first ≠ 0 ∧ stop ≠ 0 then f.returnSingleAreas first stop
        else f).areas.head a = f.areas.head a := by
  split
  next =>
    obtain ⟨hholds', hsame⟩ := hholds.returnSingleAreas hchain hones
    exact ⟨hholds', fun a ha => hsame a (List.mem_append_right _ ha)⟩
  next hcond =>
    have hnull : 0 ∉ l := by
      intro hmem
      exact hholds.null_notMem (by simp [hmem])
    have hnil : l = [] := by
      by_contra hne
      apply hcond
      exact ⟨fun h0 => hne ((hchain.first_null hnull).mp h0),
        fun h0 => hne ((hchain.last_null hnull).mp h0)⟩
    subst hnil
    exact ⟨by simpa using hholds, fun _ _ => rfl⟩

theorem returnMulti_all (hholds : f.Holds singles multis (l ++ others))
    (hchain : Chain f.areas.next 0 first stop l) :
    (if first ≠ 0 ∧ stop ≠ 0 then f.returnMultiAreas first stop else f).Holds singles (multis ++ l)
        others ∧
      ∀ a ∈ others, (if first ≠ 0 ∧ stop ≠ 0 then f.returnMultiAreas first stop
        else f).areas.head a = f.areas.head a := by
  split
  next =>
    obtain ⟨hholds', hsame⟩ := hholds.returnMultiAreas hchain
    exact ⟨hholds', fun a ha => hsame a (List.mem_append_right _ ha)⟩
  next hcond =>
    have hnull : 0 ∉ l := by
      intro hmem
      exact hholds.null_notMem (by simp [hmem])
    have hnil : l = [] := by
      by_contra hne
      apply hcond
      exact ⟨fun h0 => hne ((hchain.first_null hnull).mp h0),
        fun h0 => hne ((hchain.last_null hnull).mp h0)⟩
    subst hnil
    exact ⟨by simpa using hholds, fun _ _ => rfl⟩

/-- Outside of a transaction the lists are those up to the committed tails. -/
theorem Ok.committed {b : DbBooks} (hok : d.Ok m b) (hactive : d.activeTxn = none) :
    b.all = b.single ++ b.multi ∧ Chain m.next 0 d.headSingle d.readTxn.single b.single ∧
      Chain m.next 0 d.headMulti d.readTxn.multi b.multi := by
  obtain ⟨hnew, hnew'⟩ := hok.closed hactive
  have hsingle := hok.single
  have hmulti := hok.multi
  simp only [tails, hactive, Option.getD_none, hnew, hnew', List.append_nil] at hsingle hmulti
  refine ⟨?_, hsingle, hmulti⟩
  simp only [DbBooks.all, hnew, hnew', List.append_nil]

/-- Outside of a transaction all areas of a database go back to the pool. -/
theorem returnAreas_spec {b : DbBooks} (hactive : d.activeTxn = none)
    (hholds : f.Holds singles multis (b.all ++ others)) (hok : d.Ok f.areas b) :
    (d.returnAreas f).Holds (singles ++ b.single) (multis ++ b.multi) others ∧
      ∀ a ∈ others, (d.returnAreas f).areas.head a = f.areas.head a := by
  obtain ⟨hall, hsingle, hmulti⟩ := hok.committed hactive
  rw [hall, List.append_assoc] at hholds
  obtain ⟨hholds', hsame⟩ := returnSingle_all hholds hsingle fun a ha =>
    hok.ones a (List.mem_append_left _ ha)
  unfold returnAreas
  dsimp only
  generalize (if d.headSingle ≠ 0 ∧ d.readTxn.single ≠ 0 then
    f.returnSingleAreas d.headSingle d.readTxn.single else f) = g at hholds' hsame
  have hmulti' : Chain g.areas.next 0 d.headMulti d.readTxn.multi b.multi := by
    apply hmulti.congr
    intro c hc
    unfold Areas.next
    rw [hsame c (List.mem_append_left _ hc)]
  obtain ⟨hholds'', hsame'⟩ := returnMulti_all hholds' hmulti'
  refine ⟨hholds'', ?_⟩
  intro a ha
  rw [hsame' a ha, hsame a (List.mem_append_right _ ha)]

/-- A new database owns the area it has got. -/
theorem init_spec (hholds : f.Holds singles multis others) (hfits : f.SingleFits)
    (hinit : init f = some (f', d)) :
    ∃ b singles' multis', f'.Holds singles' multis' (b.all ++ others) ∧ d.Ok f'.areas b ∧
      ∀ a ∈ others, f'.areas.head a = f.areas.head a := by
  unfold init at hinit
  split at hinit
  next => cases hinit
  next g a halloc =>
    simp only [Option.some.injEq, Prod.mk.injEq] at hinit
    obtain ⟨rfl, rfl⟩ := hinit
    obtain ⟨⟨singles', multis', hholds'⟩, hsize, hnext, hsame⟩ :=
      hholds.allocSingleArea hfits halloc
    refine ⟨⟨[a], [], [], []⟩, singles', multis', hholds', ?_, hsame⟩
    refine ⟨⟨Chain.single hnext, Chain.nil, rfl, rfl, fun _ => ⟨rfl, rfl⟩, ?_⟩,
      ⟨by simp, fun _ => ⟨rfl, rfl⟩, fun hfalse => absurd hfalse Bool.false_ne_true⟩⟩
    intro c hc
    rw [List.append_nil, List.mem_singleton] at hc
    rw [hc]
    exact hsize

/-- The pool has single areas. -/
theorem poolSingle_ne_none (hholds : f.Holds singles multis others) (hne : singles ≠ []) :
    f.poolSingle ≠ none := by
  unfold AreaFile.poolSingle AreaList.pop
  have hnull : 0 ∉ singles := by
    intro hmem
    exact hholds.null_notMem (by simp [hmem])
  rw [if_neg fun h0 => hne ((hholds.single.first_null hnull).mp h0)]
  simp

theorem reset_keeps : Keeps f d (d.reset f).1 (d.reset f).2 := by
  unfold reset
  split
  next => exact Keeps.refl
  next hactive =>
    intro b others singles multis hholds hok
    obtain ⟨hholds', hsame⟩ := returnAreas_spec hactive hholds hok
    have hpool := poolSingle_ne_none hholds' (by simp [hok.nonempty])
    dsimp only
    split
    next hinit =>
      exfalso
      unfold init at hinit
      split at hinit
      next halloc =>
        unfold AreaFile.allocSingleArea at halloc
        split at halloc
        next => cases halloc
        next hnone => exact hpool hnone
      next => cases hinit
    next r hinit =>
      obtain ⟨b', singles', multis', hholds'', hok', hsame'⟩ :=
        init_spec hholds' (fun hnone => absurd hnone hpool) hinit
      refine ⟨b', singles', multis', hholds'', hok', ?_⟩
      intro a ha
      rw [hsame' a ha, hsame a ha]

/-- The areas behind the first one go back. -/
theorem keepFirst_cut (hholds : f.Holds singles multis (a :: l ++ others))
    (hchain : Chain f.areas.next 0 first stop (a :: l))
    (hones : ∀ c ∈ a :: l, f.areas.size c = AREA_SIZE) :
    Cut f (if first ≠ 0 ∧ f.areas.next first ≠ 0 then
      (f.returnSingleAreas (f.areas.next first) stop).setNext first 0 else f) first [a] others := by
  have hnull := hholds.null_notMem
  have hfirst : first = a := hchain.first_eq
  subst hfirst
  have hpos : first ≠ 0 := by
    rintro rfl
    simp at hnull
  have hnext : f.areas.next first = l.headD 0 := hchain.linked.1
  cases l with
  | nil =>
    rw [hnext, if_neg (by simp)]
    exact Cut.refl hholds hchain
  | cons c l =>
    have hc : c ≠ 0 := by
      rintro rfl
      simp at hnull
    have hcond : first ≠ 0 ∧ f.areas.next first ≠ 0 := by
      rw [hnext]
      exact ⟨hpos, hc⟩
    rw [if_pos hcond]
    have hchain' : Chain f.areas.next 0 first stop (([] ++ [first]) ++ c :: l) := hchain
    have hrest := hchain'.rest (by simp)
    have hperm : (c :: l ++ ([] ++ [first] ++ others)).Perm (first :: c :: l ++ others) := by
      rw [List.perm_iff_count]
      intro b
      simp only [List.count_append, List.count_cons, List.count_nil]
      omega
    obtain ⟨hholds', hsame⟩ := (hholds.perm hperm).returnSingleAreas hrest fun b hb =>
      hones b (List.mem_cons_of_mem first hb)
    exact Cut.of_unlinked hholds' hchain' fun b hb => hsame b (List.mem_append_right _ hb)

theorem resetInPlace_keeps : Keeps f d (d.resetInPlace f).1 (d.resetInPlace f).2 := by
  unfold resetInPlace
  split
  next => exact Keeps.refl
  next hactive =>
    intro b others singles multis hholds hok
    obtain ⟨hall, hsingle, hmulti⟩ := hok.committed hactive
    have hones := hok.ones
    have hne := hok.nonempty
    rw [hall] at hholds
    cases hb : b.single with
    | nil => exact absurd hb hne
    | cons c l =>
      rw [hb] at hholds hsingle hones
      rw [List.append_assoc] at hholds
      have hcut := keepFirst_cut hholds hsingle fun e he => hones e (List.mem_append_left _ he)
      dsimp only
      generalize (if d.headSingle ≠ 0 ∧ f.areas.next d.headSingle ≠ 0 then
        (f.returnSingleAreas (f.areas.next d.headSingle) d.readTxn.single).setNext d.headSingle 0
        else f) = g at hcut
      obtain ⟨⟨singles', multis', hholds'⟩, hsingle', hsize, hsame⟩ := hcut
      have hmulti' : Chain g.areas.next 0 d.headMulti d.readTxn.multi b.multi := by
        apply hmulti.congr
        intro e he
        unfold Areas.next
        rw [hsame e (List.mem_append_left _ he)]
      have hperm : (b.multi ++ ([c] ++ others)).Perm ([c] ++ (b.multi ++ others)) := by
        rw [List.perm_iff_count]
        intro e
        simp only [List.count_append]
        omega
      obtain ⟨hholds'', hsame'⟩ := returnMulti_all (hholds'.perm hperm) hmulti'
      have hnull : 0 ∉ b.multi := by
        intro hmem
        exact hholds'.null_notMem (by simp [hmem])
      have hpair : (if d.headMulti ≠ 0 ∧ d.readTxn.multi ≠ 0 then
          (g.returnMultiAreas d.headMulti d.readTxn.multi, 0) else (g, d.headMulti)) =
          (if d.headMulti ≠ 0 ∧ d.readTxn.multi ≠ 0 then
            g.returnMultiAreas d.headMulti d.readTxn.multi else g, 0) := by
        split
        next => rfl
        next hcond =>
          have hzero : d.headMulti = 0 := by
            by_contra hpos
            exact hcond ⟨hpos, fun h0 => hpos ((hmulti'.first_null_iff hnull).mpr h0)⟩
          rw [hzero]
      rw [hpair]
      dsimp only
      generalize (if d.headMulti ≠ 0 ∧ d.readTxn.multi ≠ 0 then
        g.returnMultiAreas d.headMulti d.readTxn.multi else g) = e at hholds'' hsame'
      have hfirst : d.headSingle = c := hsingle.first_eq
      refine ⟨⟨[c], [], [], []⟩, _, _, hholds'', ?_, ?_⟩
      . refine ⟨⟨?_, ?_, hfirst, rfl, fun _ => ⟨rfl, rfl⟩, ?_⟩,
          ⟨by simp, fun _ => ⟨rfl, rfl⟩, fun hfalse => absurd hfalse Bool.false_ne_true⟩⟩
        . simp only [tails, hactive, Option.getD_none, List.append_nil]
          rw [hfirst] at hsingle' ⊢
          apply hsingle'.congr
          intro x hx
          unfold Areas.next
          rw [hsame' x (List.mem_append_left _ hx)]
        . simp only [tails, hactive, Option.getD_none]
          exact Chain.nil
        . intro x hx
          rw [List.append_nil, List.mem_singleton] at hx
          subst hx
          rw [← hones x (by simp), ← hsize x (by simp)]
          unfold Areas.size
          rw [hsame' x (by simp)]
      . intro x hx
        rw [hsame' x (List.mem_append_right _ hx), hsame x (List.mem_append_right _ hx)]

end DbAreas

namespace AreaStore

/-- Every area of the file is in one place: in a list of the pool or in a list of one database. The
areas tile the file behind the file header, their sizes are multiples of `AREA_SIZE`. -/
def AreasOwned (s : AreaStore) : Prop :=
  ∃ (singles multis : List Nat) (books : List DbBooks),
    s.file.Holds singles multis (books.flatMap DbBooks.all) ∧
      List.Forall₂ (fun d b => d.Owns s.file.areas b) s.dbs books

/-- An area that is handed out is at least as big as what is asked for. -/
def Serves (s : AreaStore) : Prop :=
  (∀ f a, s.file.SingleFits → s.file.allocSingleArea = some (f, a) → AREA_SIZE ≤ f.areas.size a) ∧
    ∀ size f a, 0 < size → s.file.MultiFits size → s.file.allocMultiArea size = some (f, a) →
      size ≤ f.areas.size a

structure Inv (s : AreaStore) (singles multis : List Nat) (books : List DbBooks) : Prop where
  holds : s.file.Holds singles multis (books.flatMap DbBooks.all)
  ok : List.Forall₂ (fun d b => d.Ok s.file.areas b) s.dbs books

/-- No area is allocated in a transaction that is prepared, and where the file grows the new areas
are smaller than 4 GiB. -/
def Allows (s : AreaStore) : AreaAction → Prop
  | .create => s.file.SingleFits
  | .allocPage i => (∀ d, s.dbs[i]? = some d → d.prepared = false) ∧ s.file.SingleFits
  | .allocBig i paddedSize =>
    (∀ d, s.dbs[i]? = some d → d.prepared = false) ∧ s.file.MultiFits (bigSize paddedSize)
  | .prepare _ grows => grows = true → s.file.SingleFits
  | .commit _ grows => grows = true → s.file.SingleFits
  | _ => True

/-- Every step of the run is allowed in the state it is made in. -/
def AllowsAll (s : AreaStore) : List AreaAction → Prop
  | [] => True
  | a :: actions => s.Allows a ∧ (s.step a).AllowsAll actions

instance (f : AreaFile) (size : Nat) : Decidable (f.GrowsWell size) :=
  inferInstanceAs (Decidable (_ → _ ∧ _))

instance (f : AreaFile) : Decidable f.SingleFits :=
  decidable_of_iff (f.poolSingle.isNone = true → f.GrowsWell AREA_SIZE)
    (by rw [Option.isNone_iff_eq_none]; rfl)

instance (f : AreaFile) (size : Nat) : Decidable (f.MultiFits size) :=
  decidable_of_iff ((f.poolMulti (padding size AREA_SIZE)).isNone = true →
    f.GrowsWell (padding size AREA_SIZE)) (by rw [Option.isNone_iff_eq_none]; rfl)

instance (s : AreaStore) (i : Nat) :
    Decidable (∀ d, s.dbs[i]? = some d → d.prepared = false) :=
  inferInstanceAs (Decidable (∀ d ∈ s.dbs[i]?, d.prepared = false))

instance (s : AreaStore) (a : AreaAction) : Decidable (s.Allows a) :=
  match a with
  | .create => inferInstanceAs (Decidable s.file.SingleFits)
  | .allocPage i =>
    inferInstanceAs (Decidable ((∀ d, s.dbs[i]? = some d → d.prepared = false) ∧ s.file.SingleFits))
  | .allocBig i paddedSize =>
    inferInstanceAs (Decidable ((∀ d, s.dbs[i]? = some d → d.prepared = false) ∧
      s.file.MultiFits (bigSize paddedSize)))
  | .prepare _ grows => inferInstanceAs (Decidable (grows = true → s.file.SingleFits))
  | .commit _ grows => inferInstanceAs (Decidable (grows = true → s.file.SingleFits))
  | .start _ | .rollback _ | .reset _ | .resetInPlace _ | .remove _ => isTrue trivial

instance instDecidableAllowsAll (s : AreaStore) :
    (actions : List AreaAction) → Decidable (s.AllowsAll actions)
  | [] => isTrue trivial
  | a :: actions =>
    have := instDecidableAllowsAll (s.step a) actions
    inferInstanceAs (Decidable (s.Allows a ∧ (s.step a).AllowsAll actions))

variable {s : AreaStore} {singles multis : List Nat} {books : List DbBooks} {i : Nat}

theorem Inv.areasOwned (h : s.Inv singles multis books) : s.AreasOwned :=
  ⟨singles, multis, books, h.holds, h.ok.imp fun _ _ hok => hok.toOwns⟩

theorem Inv.serves (h : s.Inv singles multis books) : s.Serves := by
  constructor
  . intro f a hfits halloc
    exact (h.holds.allocSingleArea hfits halloc).size.ge
  . intro size f a hpos hfits halloc
    rw [(h.holds.allocMultiArea hpos hfits halloc).size]
    exact le_padding (by decide)

theorem forall₂_split {α β : Type} {R : α → β → Prop} {l : List α} {l' : List β} {a : α}
    (h : List.Forall₂ R l l') (hi : l[i]? = some a) :
    ∃ p q p' b q', l = p ++ a :: q ∧ l' = p' ++ b :: q' ∧ p.length = i ∧
      List.Forall₂ R p p' ∧ R a b ∧ List.Forall₂ R q q' := by
  induction h generalizing i with
  | nil => cases hi
  | @cons c e l l' hc hl ih =>
    cases i with
    | zero =>
      cases hi
      exact ⟨[], l, [], e, l', rfl, rfl, rfl, List.Forall₂.nil, hc, hl⟩
    | succ i =>
      obtain ⟨p, q, p', b, q', rfl, rfl, rfl, hp, hb, hq⟩ := ih hi
      exact ⟨c :: p, q, e :: p', b, q', rfl, rfl, rfl, List.Forall₂.cons hc hp, hb, hq⟩

theorem ok_of_same {m m' : Areas} {dbs : List DbAreas} {used : List Nat}
    (h : List.Forall₂ (fun d b => d.Ok m b) dbs books) (hsame : ∀ a ∈ used, m'.head a = m.head a)
    (hsub : ∀ a ∈ books.flatMap DbBooks.all, a ∈ used) :
    List.Forall₂ (fun d b => d.Ok m' b) dbs books := by
  induction h with
  | nil => exact List.Forall₂.nil
  | @cons d b dbs books hd _ ih =>
    rw [List.flatMap_cons] at hsub
    apply List.Forall₂.cons
    . exact ⟨hd.toOwns.congr fun a ha => hsame a (hsub a (List.mem_append_left _ ha)), hd.toReady⟩
    . exact ih fun a ha => hsub a (List.mem_append_right _ ha)

/-- An operation on one database leaves the others as they are. -/
theorem Inv.set {d : DbAreas} {r : AreaFile × DbAreas} (h : s.Inv singles multis books)
    (hi : s.dbs[i]? = some d) (hkeeps : DbAreas.Keeps s.file d r.1 r.2) :
    ∃ singles' multis' books', (s.set i r).Inv singles' multis' books' := by
  obtain ⟨p, q, p', b, q', hdbs, rfl, hlen, hp, hd, hq⟩ := forall₂_split h.ok hi
  have hperm : (b.all ++ (p'.flatMap DbBooks.all ++ q'.flatMap DbBooks.all)).Perm
      ((p' ++ b :: q').flatMap DbBooks.all) := by
    rw [List.flatMap_append, List.flatMap_cons, List.perm_iff_count]
    intro c
    simp only [List.count_append]
    omega
  obtain ⟨b', singles', multis', hholds, hok, hsame⟩ :=
    hkeeps b _ singles multis (h.holds.perm hperm) hd
  refine ⟨singles', multis', p' ++ b' :: q', ?_, ?_⟩
  . apply hholds.perm
    rw [List.flatMap_append, List.flatMap_cons, List.perm_iff_count]
    intro c
    simp only [List.count_append]
    omega
  . unfold AreaStore.set
    rw [hdbs, ← hlen, List.set_append_right _ _ (le_refl _), Nat.sub_self, List.set_cons_zero]
    apply List.rel_append
    . exact ok_of_same hp hsame fun a ha => List.mem_append_left _ ha
    . refine List.Forall₂.cons ?_ ?_
      . exact hok
      . exact ok_of_same hq hsame fun a ha => List.mem_append_right _ ha

theorem Inv.setSome {d : DbAreas} {r : Option (AreaFile × DbAreas)}
    (h : s.Inv singles multis books) (hi : s.dbs[i]? = some d)
    (hkeeps : ∀ f' d', r = some (f', d') → DbAreas.Keeps s.file d f' d') :
    ∃ singles' multis' books', (s.setSome i r).Inv singles' multis' books' := by
  unfold AreaStore.setSome
  cases r with
  | none => exact ⟨singles, multis, books, h⟩
  | some r => exact h.set hi (hkeeps r.1 r.2 rfl)

theorem Inv.onDb {op : DbAreas → AreaStore} (h : s.Inv singles multis books)
    (hop : ∀ d, s.dbs[i]? = some d →
      ∃ singles' multis' books', (op d).Inv singles' multis' books') :
    ∃ singles' multis' books', (s.onDb i op).Inv singles' multis' books' := by
  unfold AreaStore.onDb
  split
  next => exact ⟨singles, multis, books, h⟩
  next d hi => exact hop d hi

theorem Inv.create (h : s.Inv singles multis books) (hfits : s.file.SingleFits) :
    ∃ singles' multis' books', (s.step .create).Inv singles' multis' books' := by
  simp only [AreaStore.step]
  split
  next => exact ⟨singles, multis, books, h⟩
  next f d hinit =>
    obtain ⟨b, singles', multis', hholds, hok, hsame⟩ := DbAreas.init_spec h.holds hfits hinit
    refine ⟨singles', multis', books ++ [b], ?_, ?_⟩
    . apply hholds.perm
      simp only [List.flatMap_append, List.flatMap_cons, List.flatMap_nil, List.append_nil]
      exact List.perm_append_comm
    . apply List.rel_append
      . exact ok_of_same h.ok hsame fun a ha => ha
      . refine List.Forall₂.cons ?_ List.Forall₂.nil
        exact hok

theorem Inv.remove (h : s.Inv singles multis books) :
    ∃ singles' multis' books', (s.step (.remove i)).Inv singles' multis' books' := by
  simp only [AreaStore.step]
  apply h.onDb
  intro d hi
  split
  next => exact ⟨singles, multis, books, h⟩
  next hactive =>
    obtain ⟨p, q, p', b, q', hdbs, rfl, hlen, hp, hd, hq⟩ := forall₂_split h.ok hi
    have hperm : (b.all ++ (p'.flatMap DbBooks.all ++ q'.flatMap DbBooks.all)).Perm
        ((p' ++ b :: q').flatMap DbBooks.all) := by
      rw [List.flatMap_append, List.flatMap_cons, List.perm_iff_count]
      intro c
      simp only [List.count_append]
      omega
    obtain ⟨hholds, hsame⟩ := DbAreas.returnAreas_spec hactive (h.holds.perm hperm) hd
    refine ⟨singles ++ b.single, multis ++ b.multi, p' ++ q', ?_, ?_⟩
    . rw [List.flatMap_append]
      exact hholds
    . dsimp only
      rw [hdbs, ← hlen, List.eraseIdx_append_of_length_le (le_refl _), Nat.sub_self,
        List.eraseIdx_cons_zero]
      apply List.rel_append
      . exact ok_of_same hp hsame fun a ha => List.mem_append_left _ ha
      . exact ok_of_same hq hsame fun a ha => List.mem_append_right _ ha

theorem Inv.step {a : AreaAction} (h : s.Inv singles multis books) (hallows : s.Allows a) :
    ∃ singles' multis' books', (s.step a).Inv singles' multis' books' := by
  cases a with
  | create => exact h.create hallows
  | start i => exact h.onDb fun d hi => h.set hi DbAreas.startTransaction_keeps
  | allocPage i =>
    apply h.onDb
    intro d hi
    exact h.setSome hi fun f' d' heq =>
      DbAreas.allocSingleArea_keeps (hallows.1 d hi) hallows.2 heq
  | allocBig i paddedSize =>
    have hpos : 0 < bigSize paddedSize := by
      apply padding_pos _ (by decide)
      simp [AREA_HEADER_SIZE]
    apply h.onDb
    intro d hi
    exact h.setSome hi fun f' d' heq =>
      DbAreas.allocMultiArea_keeps hpos (hallows.1 d hi) hallows.2 heq
  | prepare i grows =>
    apply h.onDb
    intro d hi
    exact h.setSome hi fun f' d' heq => DbAreas.prepareCommit_keeps hallows heq
  | commit i grows =>
    exact h.onDb fun d hi => h.set hi (DbAreas.commit_keeps hallows DbAreas.rollback_keeps)
  | rollback i => exact h.onDb fun d hi => h.set hi DbAreas.rollback_keeps
  | reset i => exact h.onDb fun d hi => h.set hi DbAreas.reset_keeps
  | resetInPlace i => exact h.onDb fun d hi => h.set hi DbAreas.resetInPlace_keeps
  | remove i => exact h.remove

theorem Inv.run {actions : List AreaAction} (h : s.Inv singles multis books)
    (hallows : s.AllowsAll actions) :
    ∃ singles' multis' books', (s.run actions).Inv singles' multis' books' := by
  induction actions generalizing s singles multis books with
  | nil => exact ⟨singles, multis, books, h⟩
  | cons a actions ih =>
    obtain ⟨singles', multis', books', h'⟩ := h.step hallows.1
    exact ih h' hallows.2

theorem inv_init (regionSize : Nat) : (init regionSize).Inv [] [] [] := by
  refine ⟨⟨Chain.nil, Chain.nil, ?_, by simp, by simp, le_refl _, Nat.dvd_refl _⟩,
    List.Forall₂.nil⟩
  have hnone : ∀ x, Range.owners [⟨AREA_SIZE, 0⟩] x = 0 := by
    intro x
    rw [Range.owners_cons, if_neg (by unfold Range.Has; dsimp only; omega)]
    rfl
  have hsize : (init regionSize).file.fileSize - AREA_SIZE = 0 := Nat.sub_self _
  rw [hsize]
  constructor
  . intro x
    rw [hnone]
    rfl
  . intro x
    rw [hnone]
    omega

/-- In a run of creations, transactions, resets and removals of any number of databases, in which no
area is allocated after `prepare_commit` and the file does not grow by an area of 4 GiB or more,
every area has one owner in every state, and an area that is handed out is big enough. -/
theorem areas_owned (regionSize : Nat) (actions : List AreaAction)
    (hallows : (init regionSize).AllowsAll actions) :
    ((init regionSize).run actions).AreasOwned ∧ ((init regionSize).run actions).Serves := by
  obtain ⟨singles, multis, books, h⟩ := (inv_init regionSize).run hallows
  exact ⟨h.areasOwned, h.serves⟩

/-- Two databases, one of which is reset while the other one is removed. -/
theorem areas_owned_two :
    ((init (2 ^ 31)).run [.create, .create, .start 0, .allocBig 0 (3 * 1024 * 1024), .allocPage 0,
      .start 1, .allocPage 1, .commit 0 true, .rollback 1, .resetInPlace 0, .remove 1,
      .reset 0]).AreasOwned ∧
    ((init (2 ^ 31)).run [.create, .create, .start 0, .allocBig 0 (3 * 1024 * 1024), .allocPage 0,
      .start 1, .allocPage 1, .commit 0 true, .rollback 1, .resetInPlace 0, .remove 1,
      .reset 0]).Serves :=
  areas_owned (2 ^ 31) _ (by decide +kernel)

/-- Outside of a transaction the head of a list is zero where the committed tail is. -/
theorem AreasOwned.heads {d : DbAreas} (h : s.AreasOwned) (hd : d ∈ s.dbs)
    (hactive : d.activeTxn = none) :
    (d.headSingle = 0 ↔ d.readTxn.single = 0) ∧ (d.headMulti = 0 ↔ d.readTxn.multi = 0) := by
  obtain ⟨singles, multis, books, hholds, hdbs⟩ := h
  obtain ⟨i, hi⟩ := List.getElem?_of_mem hd
  obtain ⟨p, q, p', b, q', -, rfl, -, -, howns, -⟩ := forall₂_split hdbs hi
  have hnull : 0 ∉ b.all := by
    intro hmem
    apply hholds.null_notMem
    simp [hmem]
  obtain ⟨hnew, hnew'⟩ := howns.closed hactive
  have hsingle := howns.single
  have hmulti := howns.multi
  simp only [DbAreas.tails, hactive, Option.getD_none, hnew, hnew', List.append_nil]
    at hsingle hmulti
  simp only [DbBooks.all, hnew, hnew', List.append_nil, List.mem_append, not_or] at hnull
  exact ⟨hsingle.first_null_iff hnull.1, hmulti.first_null_iff hnull.2⟩

/-- A big value between `prepare_commit` and `commit`: the next transaction starts from the tails of
the clone, and its commit loses the tail of the multi areas. -/
theorem areas_owned_prepared :
    ¬((init (2 ^ 31)).run [.create, .start 0, .prepare 0 false, .allocBig 0 (3 * 1024 * 1024),
      .commit 0 false, .start 0, .commit 0 false]).AreasOwned := by
  intro h
  have hdbs : ((init (2 ^ 31)).run [.create, .start 0, .prepare 0 false,
      .allocBig 0 (3 * 1024 * 1024), .commit 0 false, .start 0, .commit 0 false]).dbs =
      [⟨2097152, 4194304, ⟨2097152, 0⟩, none, false, some ⟨2097152, 0⟩⟩] := by
    decide +kernel
  have hheads := h.heads (hdbs ▸ List.mem_cons_self) rfl
  exact absurd (hheads.2.mpr rfl) (by decide)

end AreaStore
end Leaves
