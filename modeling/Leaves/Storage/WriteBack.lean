import Leaves.Storage.CacheSteps
import Mathlib.Data.List.Perm.Basic

/-!
What `flush` and the background do to the dirty maps and the file, and what holds in every run.
-/

namespace Leaves
namespace CacheStore

open Bytes

variable {t : StoreTraits} {s : CacheStore} {l : Ledger}

/-- The writes in another order. -/
theorem Stored.perm (h : s.Stored l) {ws : List SliceWrite} (hperm : ws.Perm s.writes) :
    Stored { s with writes := ws } l := by
  constructor
  . intro w hw
    exact h.writes w (hperm.mem_iff.1 hw)
  . intro r hr hlive
    rcases h.file r hr hlive with hwaits | hshows | ⟨w, hw, hk⟩
    . exact .inl hwaits
    . exact .inr (.inl hshows)
    . exact .inr (.inr ⟨w, hperm.mem_iff.2 hw, hk⟩)

theorem perm_of_getElem? {α : Type} {xs : List α} {i : Nat} {x : α} (h : xs[i]? = some x) :
    (x :: xs.eraseIdx i).Perm xs := by
  obtain ⟨hi, rfl⟩ := List.getElem?_eq_some_iff.1 h
  exact List.getElem_cons_eraseIdx_perm hi

theorem set_perm {α : Type} {xs : List α} {i : Nat} {x y : α} (h : xs[i]? = some x) :
    (xs.set i y).Perm (y :: xs.eraseIdx i) := by
  obtain ⟨hi, rfl⟩ := List.getElem?_eq_some_iff.1 h
  have hset : (xs.set i y)[i]? = some y := List.getElem?_set_self hi
  have hperm := (perm_of_getElem? hset).symm
  rwa [List.eraseIdx_set_eq] at hperm

namespace Inv

theorem perm (h : Inv t s l) {ws : List SliceWrite} (hperm : ws.Perm s.writes) :
    Inv t { s with writes := ws } l :=
  ⟨h.laid.congr rfl, ⟨h.cached.slices, h.cached.shows, h.cached.held, h.cached.pending,
    h.cached.committed, h.cached.inflight⟩, h.stored.perm hperm⟩

/-- The bytes of a slice are sent. -/
theorem send {w : SliceWrite} {ws : List SliceWrite} (h : Inv t { s with writes := w :: ws } l) :
    Inv t { s with writes := s.send w :: ws } l := by
  have hslice : (s.send w).slice = w.slice := by
    unfold CacheStore.send
    split <;> rfl
  refine ⟨h.laid.congr rfl, ⟨h.cached.slices, h.cached.shows, h.cached.held, h.cached.pending,
    h.cached.committed, h.cached.inflight⟩, ?_, ?_⟩
  . intro w' hw'
    rcases List.mem_cons.1 hw' with rfl | hw'
    . obtain ⟨r, hr, hk, hin, hsent⟩ := h.stored.writes w List.mem_cons_self
      refine ⟨r, hr, ?_, hin, ?_⟩
      . rw [hslice]
        exact hk
      . intro b hb
        cases hw : w.sent with
        | some b' =>
          have heq : s.send w = w := by
            unfold CacheStore.send
            rw [hw]
          rw [heq] at hb
          exact hsent b hb
        | none =>
          have heq : (s.send w).sent = some (s.slice w.slice) := by
            unfold CacheStore.send
            rw [hw]
          rw [heq] at hb
          cases hb
          exact ⟨h.heads hr hk, .inr (.inr (h.shows hr hk))⟩
    . exact h.stored.writes w' (List.mem_cons_of_mem _ hw')
  . intro r hr hlive
    rcases h.stored.file r hr hlive with hwaits | hshows | ⟨w', hw', hk⟩
    . exact .inl hwaits
    . exact .inr (.inl hshows)
    . rcases List.mem_cons.1 hw' with rfl | hw'
      . refine .inr (.inr ⟨s.send w', List.mem_cons_self, ?_⟩)
        rw [hslice]
        exact hk
      . exact .inr (.inr ⟨w', List.mem_cons_of_mem _ hw', hk⟩)

/-- The bytes that were sent come to the file. -/
theorem land {w : SliceWrite} {ws : List SliceWrite} (h : Inv t { s with writes := w :: ws } l)
    (hw : w.sent.isSome) : Inv t { s.land w with writes := ws } l := by
  obtain ⟨b, hb⟩ := Option.isSome_iff_exists.1 hw
  obtain ⟨r, hr, hk, hin, hsent⟩ := h.stored.writes w List.mem_cons_self
  obtain ⟨hheads, hor⟩ := hsent b hb
  have hland : s.land w = { s with file := s.file.store r.start r.size b } := by
    unfold CacheStore.land
    rw [hb]
    change { s with file := s.file.store b.offset b.size b } = _
    rw [hheads.1, hheads.2]
  rw [hland]
  refine ⟨h.laid.congr rfl, ⟨h.cached.slices, h.cached.shows, h.cached.held, h.cached.pending,
    h.cached.committed, h.cached.inflight⟩, ?_, ?_⟩
  . intro w' hw'
    exact h.stored.writes w' (List.mem_cons_of_mem _ hw')
  . intro r' hr' hlive
    by_cases heq : r' = r
    . rw [heq] at hlive ⊢
      rcases hor with hwaits | hdead | hshows
      . exact .inl hwaits
      . rw [hlive] at hdead
        cases hdead
      . refine .inr (.inl ?_)
        intro i hi href
        change s.file.store r.start r.size b (r.start + i) = _
        rw [store_of_has ⟨Nat.le_add_right _ _, Nat.add_lt_add_left hi _⟩, Nat.add_sub_cancel_left]
        exact hshows i hi href
    . rcases h.stored.file r' hr' hlive with hwaits | hshows | ⟨w', hw', hk'⟩
      . exact .inl hwaits
      . refine .inr (.inl ?_)
        intro i hi href
        change s.file.store r.start r.size b (r'.start + i) = _
        rw [store_of_not]
        . exact hshows i hi href
        . intro hhas
          apply heq
          exact h.laid.unique hr' hr ⟨Nat.le_add_right _ _, Nat.add_lt_add_left hi _⟩ hhas
      . rcases List.mem_cons.1 hw' with rfl | hw'
        . have hstart := h.cache_inj hk' hk
          exact absurd (h.laid.eq_of_start hr' hr hstart) heq
        . exact .inr (.inr ⟨w', hw', hk'⟩)

/-- All of the writes come to the file. -/
theorem landAll {ws : List SliceWrite} (h : Inv t { s with writes := ws } l) :
    Inv t { s.landAll ws with writes := [] } l := by
  induction ws generalizing s with
  | nil => exact h
  | cons w ws ih =>
    have hsome : (s.send w).sent.isSome := by
      unfold CacheStore.send
      split
      next hw => rw [hw]; rfl
      next => rfl
    exact ih (h.send.land hsome)

theorem commitPending (h : Inv t s l) : Inv t s.commitPending l := by
  have hwaits : ∀ k, s.commitPending.Waits k ↔ s.Waits k := by
    intro k
    change k ∈ (∅ : DirtyMap) ∨ k ∈ s.dirtyCommitted ∪ s.dirtyPending ↔ _
    rw [AList.mem_union, Waits, or_comm (a := k ∈ s.dirtyCommitted)]
    exact or_iff_right (AList.notMem_empty k)
  refine ⟨h.laid.congr rfl, ⟨h.cached.slices, h.cached.shows, h.cached.held, ?_, ?_,
    h.cached.inflight⟩, ?_, ?_⟩
  . intro k i hi
    cases hi
  . intro k i hi
    rcases AList.lookup_union_eq_some.1 hi with hi | ⟨_, hi⟩
    . exact h.cached.committed k i hi
    . exact h.cached.pending k i hi
  . intro w hw
    obtain ⟨r, hr, hk, hin, hsent⟩ := h.stored.writes w hw
    refine ⟨r, hr, hk, hin, ?_⟩
    intro b hb
    unfold Sent
    rw [hwaits]
    exact hsent b hb
  . intro r hr hlive
    rw [hwaits]
    exact h.stored.file r hr hlive

end Inv

theorem mem_toWrite {k i : Nat} : (s.partitionCommitted t).1.lookup k = some i ↔
    s.dirtyCommitted.lookup k = some i ∧ s.defers t k = false := by
  have hiff : ∀ m : DirtyMap, m.lookup k = some i ↔ ⟨k, i⟩ ∈ m.entries :=
    fun m => AList.mem_lookup_iff
  rw [hiff, hiff]
  unfold partitionCommitted
  simp only [List.mem_filter, Bool.not_eq_true']

theorem mem_deferred {k i : Nat} : (s.partitionCommitted t).2.lookup k = some i ↔
    s.dirtyCommitted.lookup k = some i ∧ s.defers t k = true := by
  have hiff : ∀ m : DirtyMap, m.lookup k = some i ↔ ⟨k, i⟩ ∈ m.entries :=
    fun m => AList.mem_lookup_iff
  rw [hiff, hiff]
  unfold partitionCommitted
  simp only [List.mem_filter]

/-- There are no writes that nobody knows of. -/
def Known (t : StoreTraits) (s : CacheStore) : Prop := t.tracked = true ∨ s.writes = []

theorem hasPendingWrites_of_mem (h : Known t s) {w : SliceWrite} (hw : w ∈ s.writes) :
    s.hasPendingWrites t = true := by
  have hne : s.writes ≠ [] := List.ne_nil_of_mem hw
  unfold hasPendingWrites
  rw [h.resolve_right hne, Bool.true_and]
  cases hws : s.writes with
  | nil => exact absurd hws hne
  | cons _ _ => rfl

/-- A block that is committed is written now, or it is left for later. -/
theorem committed_cases {k : Nat} (hk : k ∈ s.dirtyCommitted) :
    (∃ i, s.dirtyCommitted.lookup k = some i ∧ (s.partitionCommitted t).1.lookup k = some i) ∨
      k ∈ (s.partitionCommitted t).2 := by
  obtain ⟨i, hi⟩ := Option.isSome_iff_exists.1 (AList.lookup_isSome.2 hk)
  cases hdefers : s.defers t k with
  | false => exact .inl ⟨i, hi, mem_toWrite.2 ⟨hi, hdefers⟩⟩
  | true =>
    refine .inr (AList.lookup_isSome.1 ?_)
    rw [mem_deferred.2 ⟨hi, hdefers⟩]
    rfl

namespace Inv

theorem submitBlocks (h : Inv t s l) (hknown : Known t s) : Inv t (s.submitBlocks t) l := by
  let r := s.partitionCommitted t
  have hinflight : ∀ k i, (s.submitBlocks t).dirtyInflight.lookup k = some i →
      s.cache k = some i := by
    intro k i hi
    rcases AList.lookup_union_eq_some.1 hi with hi | ⟨_, hi⟩
    . exact h.cached.committed k i (mem_toWrite.1 hi).1
    . split at hi
      . exact h.cached.inflight k i hi
      . cases hi
  have hwrite : ∀ k i, r.1.lookup k = some i → ⟨i, none⟩ ∈ (s.submitBlocks t).writes := by
    intro k i hi
    refine List.mem_append_right _ (List.mem_map.2 ⟨⟨k, i⟩, AList.mem_lookup_iff.1 hi, rfl⟩)
  refine ⟨h.laid.congr rfl, ⟨h.cached.slices, h.cached.shows, h.cached.held, h.cached.pending, ?_,
    hinflight⟩, ?_, ?_⟩
  . intro k i hi
    exact h.cached.committed k i (mem_deferred.1 hi).1
  . intro w hw
    rcases List.mem_append.1 hw with hw | hw
    . -- a block that is on its way is not written a second time
      obtain ⟨r', hr', hk, hin, hsent⟩ := h.stored.writes w hw
      have hpending := hasPendingWrites_of_mem hknown hw
      refine ⟨r', hr', hk, ?_, ?_⟩
      . change r'.start ∈ r.1 ∪ (if s.hasPendingWrites t then s.dirtyInflight else ∅)
        rw [if_pos hpending, AList.mem_union]
        exact .inr hin
      . intro b hb
        obtain ⟨hheads, hor⟩ := hsent b hb
        refine ⟨hheads, hor.imp_left ?_⟩
        intro hwaits
        refine hwaits.imp_right ?_
        intro hcommitted
        rcases committed_cases (t := t) hcommitted with ⟨i, hi, hto⟩ | hdeferred
        . have hdefers := (mem_toWrite.1 hto).2
          unfold defers at hdefers
          rw [hpending, AList.lookup_isSome.2 hin] at hdefers
          cases hdefers
        . exact hdeferred
    . obtain ⟨⟨k, i⟩, he, rfl⟩ := List.mem_map.1 hw
      have hto : r.1.lookup k = some i := AList.mem_lookup_iff.2 he
      have hk := h.cached.committed k i (mem_toWrite.1 hto).1
      obtain ⟨r', hr', rfl, _⟩ := h.area hk
      refine ⟨r', hr', hk, ?_, ?_⟩
      . refine AList.mem_union.2 (.inl (AList.lookup_isSome.1 ?_))
        rw [hto]
        rfl
      . intro b hb
        cases hb
  . intro r' hr' hlive
    rcases h.stored.file r' hr' hlive with (hpending | hcommitted) | hshows | ⟨w, hw, hk⟩
    . exact .inl (.inl hpending)
    . rcases committed_cases (t := t) hcommitted with ⟨i, hi, hto⟩ | hdeferred
      . exact .inr (.inr ⟨⟨i, none⟩, hwrite _ i hto, h.cached.committed _ i hi⟩)
      . exact .inl (.inr hdeferred)
    . exact .inr (.inl hshows)
    . exact .inr (.inr ⟨w, List.mem_append_left _ hw, hk⟩)

end Inv

/-- Only the file is changed by writes that come to it. -/
theorem landAll_eq (s : CacheStore) (ws : List SliceWrite) :
    ∃ file, s.landAll ws = { s with file } := by
  induction ws generalizing s with
  | nil => exact ⟨s.file, rfl⟩
  | cons w ws ih =>
    obtain ⟨file, hfile⟩ : ∃ file, s.land (s.send w) = { s with file } := by
      unfold land
      split
      . exact ⟨_, rfl⟩
      . exact ⟨s.file, rfl⟩
    obtain ⟨file', hfile'⟩ := ih (s.land (s.send w))
    refine ⟨file', ?_⟩
    change (s.land (s.send w)).landAll ws = _
    rw [hfile', hfile]

theorem withWrites_eq {ws : List SliceWrite} (h : s.writes = ws) : { s with writes := ws } = s := by
  rw [← h]

/-- The file has what was to be written if nobody else writes, otherwise it is on its way. -/
theorem Inv.writeDirtyBlocks (h : Inv t s l) (hknown : Known t s) :
    Inv t (s.writeDirtyBlocks t) l ∧ Known t (s.writeDirtyBlocks t) := by
  have hsubmit := h.submitBlocks hknown
  unfold CacheStore.writeDirtyBlocks
  cases htracked : t.tracked with
  | true =>
    rw [if_pos rfl]
    exact ⟨hsubmit, .inl htracked⟩
  | false =>
    rw [if_neg Bool.false_ne_true]
    have hnil : s.writes = [] := by
      apply hknown.resolve_left
      rw [htracked]
      exact Bool.false_ne_true
    have hwrites : ((s.collectBlocks t).2.landAll (s.collectBlocks t).1).writes = [] := by
      obtain ⟨file, hfile⟩ := landAll_eq (s.collectBlocks t).2 (s.collectBlocks t).1
      rw [hfile]
      exact hnil
    have hall : (s.submitBlocks t).writes = (s.collectBlocks t).1 := by
      change s.writes ++ _ = _
      rw [hnil, List.nil_append]
    have hland : Inv t { (s.collectBlocks t).2 with writes := (s.collectBlocks t).1 } l := by
      rw [← hall]
      exact hsubmit
    have hlanded := hland.landAll
    rw [withWrites_eq hwrites] at hlanded
    exact ⟨hlanded, .inr hwrites⟩

theorem Inv.waitForWrites (h : Inv t s l) (hknown : Known t s) :
    Inv t (s.waitForWrites t) l ∧ (s.waitForWrites t).writes = [] := by
  unfold CacheStore.waitForWrites
  cases htracked : t.tracked with
  | true =>
    rw [if_pos rfl]
    obtain ⟨file, hfile⟩ := landAll_eq { s with writes := [] } s.writes
    have hwrites : (({ s with writes := [] } : CacheStore).landAll s.writes).writes = [] := by
      rw [hfile]
    have hland : Inv t { ({ s with writes := [] } : CacheStore) with writes := s.writes } l := h
    have hlanded := hland.landAll
    rw [withWrites_eq hwrites] at hlanded
    exact ⟨hlanded, hwrites⟩
  | false =>
    rw [if_neg Bool.false_ne_true]
    refine ⟨h, hknown.resolve_left ?_⟩
    rw [htracked]
    exact Bool.false_ne_true

theorem Inv.flush (h : Inv t s l) {sync : Bool}
    (hknown : sync = true ∨ t.hasWorkers = false → Known t s) : Inv t (s.flush t sync) l := by
  have hcommit := h.commitPending
  unfold CacheStore.flush
  cases sync with
  | true =>
    have hknown : Known t s.commitPending := hknown (.inl rfl)
    obtain ⟨hwrite, hknown'⟩ := hcommit.writeDirtyBlocks hknown
    exact (hwrite.waitForWrites hknown').1
  | false =>
    simp only [if_neg Bool.false_ne_true]
    split
    . split
      . split
        . exact ⟨hcommit.laid.congr rfl, ⟨hcommit.cached.slices, hcommit.cached.shows,
            hcommit.cached.held, hcommit.cached.pending, hcommit.cached.committed,
            hcommit.cached.inflight⟩, hcommit.stored.mono (fun _ _ _ hk => hk) rfl rfl rfl rfl rfl⟩
        . exact hcommit
      next hworkers =>
        have hknown : Known t s.commitPending := hknown (.inr (Bool.eq_false_iff.2 hworkers))
        exact (hcommit.writeDirtyBlocks hknown).1
    . exact hcommit

theorem writeDirtyBlocks_maps : (s.writeDirtyBlocks t).dirtyPending = s.dirtyPending ∧
    (s.writeDirtyBlocks t).dirtyCommitted = (s.partitionCommitted t).2 := by
  unfold writeDirtyBlocks
  split
  . exact ⟨rfl, rfl⟩
  . obtain ⟨file, hfile⟩ := landAll_eq (s.collectBlocks t).2 (s.collectBlocks t).1
    simp only [hfile]
    exact ⟨rfl, rfl⟩

theorem waitForWrites_maps : (s.waitForWrites t).dirtyPending = s.dirtyPending ∧
    (s.waitForWrites t).dirtyCommitted = s.dirtyCommitted := by
  unfold waitForWrites
  split
  . obtain ⟨file, hfile⟩ := landAll_eq { s with writes := [] } s.writes
    simp only [hfile]
    exact ⟨trivial, trivial⟩
  . exact ⟨rfl, rfl⟩

/-- When nothing is on its way, a synchronous flush brings all of the live areas to the file. -/
theorem Inv.flush_shows (h : Inv t s l) (hnil : s.writes = []) {r : Range} (hr : r ∈ l.areas)
    (hlive : l.live r.start = true) :
    ((s.flush t true).file.drop r.start).Shows r l.bytes := by
  have hcommit := h.commitPending
  have hknown : Known t s.commitPending := .inr hnil
  obtain ⟨hwrite, hknown'⟩ := hcommit.writeDirtyBlocks hknown
  obtain ⟨hwait, hwrites⟩ := hwrite.waitForWrites hknown'
  have hnone : ¬(s.flush t true).Waits r.start := by
    change ¬((s.commitPending.writeDirtyBlocks t).waitForWrites t).Waits r.start
    unfold Waits
    rw [waitForWrites_maps.1, waitForWrites_maps.2, writeDirtyBlocks_maps.1,
      writeDirtyBlocks_maps.2, not_or]
    refine ⟨AList.notMem_empty _, ?_⟩
    rw [← AList.lookup_isSome, Option.isSome_iff_exists]
    intro ⟨i, hi⟩
    -- nothing is deferred
    have hdefers := (mem_deferred.1 hi).2
    unfold defers hasPendingWrites at hdefers
    rw [show s.commitPending.writes = [] from hnil, List.isEmpty_nil, Bool.not_true, Bool.and_false,
      Bool.false_and] at hdefers
    cases hdefers
  rcases hwait.stored.file r hr hlive with hwaits | hshows | ⟨w, hw, _⟩
  . exact absurd hwaits hnone
  . exact hshows
  . rw [hwrites] at hw
    cases hw

theorem Serial.known (h : Serial t s) (htask : s.flushTask ≠ .running) : Known t s := by
  cases htracked : t.tracked with
  | true => exact .inl htracked
  | false =>
    apply Or.inr
    apply Classical.byContradiction
    intro hne
    exact htask (h htracked hne)

theorem Serial.of_known (h : Known t s) : Serial t s := by
  intro htracked hne
  rcases h with h | h
  . rw [htracked] at h
    cases h
  . exact absurd h hne

theorem Serial.flush (h : Serial t s) (hinv : Inv t s l) {sync : Bool}
    (hknown : sync = true ∨ t.hasWorkers = false → Known t s) : Serial t (s.flush t sync) := by
  have hcommit := hinv.commitPending
  unfold CacheStore.flush
  cases sync with
  | true =>
    have hknown : Known t s.commitPending := hknown (.inl rfl)
    obtain ⟨hwrite, hknown'⟩ := hcommit.writeDirtyBlocks hknown
    exact Serial.of_known (.inr (hwrite.waitForWrites hknown').2)
  | false =>
    simp only [if_neg Bool.false_ne_true]
    split
    . split
      . split
        next hidle =>
          have hknown : Known t s := h.known (fun hrun => by
            change s.flushTask = .idle at hidle
            rw [hidle] at hrun
            cases hrun)
          exact Serial.of_known hknown
        . exact h
      next hworkers =>
        have hknown : Known t s.commitPending := hknown (.inr (Bool.eq_false_iff.2 hworkers))
        exact Serial.of_known (hcommit.writeDirtyBlocks hknown).2
    . exact h

/-- The areas that `alloc_multi_area` asks for are whole blocks. -/
theorem padding_dvd (size : Nat) : t.areaSize ∣ padding size t.areaSize := Nat.dvd_mul_left _ _

theorem padding_pos {size : Nat} (h : 0 < size) : 0 < padding size t.areaSize := by
  have hA := t.head_le
  unfold padding
  apply Nat.mul_pos _ (by omega)
  apply Nat.div_pos <;> omega

theorem put_eq (key slice : Nat) : ∃ cache, s.put key slice = { s with cache } := by
  unfold put
  split
  . exact ⟨s.cache, rfl⟩
  . exact ⟨_, rfl⟩

theorem Serial.congr {s' : CacheStore} (h : Serial t s) (hwrites : s'.writes = s.writes)
    (htask : s'.flushTask = s.flushTask) : Serial t s' := by
  unfold Serial
  rw [hwrites, htask]
  exact h

theorem Serial.emplaceNewArea (h : Serial t s) (size : Nat) (memory : Bytes) :
    Serial t (s.emplaceNewArea size memory) := by
  unfold CacheStore.emplaceNewArea
  simp only
  obtain ⟨cache, hput⟩ := put_eq (s := CacheStore.newSlice
    { s with fileSize := s.fileSize + size, headerDirty := true }
    (memory.init s.fileSize size 0)) s.fileSize s.slices
  rw [hput]
  exact h.congr rfl rfl

theorem Serial.resolve (h : Serial t s) (offset : Nat) : Serial t (s.resolve t offset).1 := by
  unfold CacheStore.resolve
  split
  . exact h
  . simp only
    split
    . exact h.congr rfl rfl
    . split
      next slice _ =>
        obtain ⟨cache, hput⟩ := put_eq (s := s) (offset - offset % t.areaSize) slice
        rw [hput]
        exact h.congr rfl rfl
      . obtain ⟨cache, hput⟩ := put_eq (s := s.newSlice (s.load (offset - offset % t.areaSize)))
          (offset - offset % t.areaSize) s.slices
        rw [hput]
        exact h.congr rfl rfl

theorem Serial.evict (h : Serial t s) (key : Nat) : Serial t (s.evict key) := by
  unfold CacheStore.evict
  split
  . split
    . exact h
    . exact h.congr rfl rfl
  . exact h

theorem Inv.withTask (h : Inv t s l) (flushTask : FlushTask) : Inv t { s with flushTask } l :=
  ⟨h.laid.congr rfl, ⟨h.cached.slices, h.cached.shows, h.cached.held, h.cached.pending,
    h.cached.committed, h.cached.inflight⟩, h.stored.mono (fun _ _ _ hk => hk) rfl rfl rfl rfl rfl⟩

theorem step_inv (h : Inv t s l) (hserial : Serial t s) {op : StoreOp} (hop : Allowed t s l op) :
    Inv t (s.step t op) (l.note t s op) ∧ Serial t (s.step t op) := by
  cases op with
  | allocSingleArea memory =>
    have hA := t.head_le
    exact ⟨h.emplaceNewArea memory (Nat.dvd_refl _) (by omega) t.size_lt hop,
      hserial.emplaceNewArea _ _⟩
  | allocMultiArea size memory =>
    obtain ⟨hpos, hlt, hfile⟩ := hop
    exact ⟨h.emplaceNewArea memory (padding_dvd size) (padding_pos hpos) hlt hfile,
      hserial.emplaceNewArea _ _⟩
  | resolve offset =>
    refine ⟨?_, hserial.resolve offset⟩
    rcases hop with rfl | ⟨r, hr, hreach⟩
    . exact h
    . exact (h.resolve_spec hr hreach).1
  | poke slice pos data =>
    simp only [step, Ledger.note]
    split
    next hheld =>
      obtain ⟨hsize, hoffset, hsize'⟩ := hop hheld
      exact ⟨h.poke hheld hsize hoffset hsize', hserial.congr rfl rfl⟩
    . exact ⟨h, hserial⟩
  | makeDirty slice =>
    simp only [step, Ledger.note]
    split
    next hheld => exact ⟨h.makeDirty hheld, hserial.congr rfl rfl⟩
    . exact ⟨h, hserial⟩
  | release slice => exact ⟨h.release slice, hserial.congr rfl rfl⟩
  | flush sync => exact ⟨h.flush hop, hserial.flush h hop⟩
  | evict key => exact ⟨h.evict key, hserial.evict key⟩
  | beginTask =>
    simp only [step, Ledger.note]
    split
    next htask =>
      have hknown : Known t s := hserial.known (fun hrun => by
        rw [htask] at hrun
        cases hrun)
      exact ⟨(h.submitBlocks hknown).withTask _, fun _ _ => rfl⟩
    . exact ⟨h, hserial⟩
  | endTask =>
    simp only [step, Ledger.note]
    split
    next hdone => exact ⟨h.withTask _, Serial.of_known hdone.2⟩
    . exact ⟨h, hserial⟩
  | send i =>
    simp only [step, Ledger.note]
    split
    next w hw =>
      have hcons : Inv t { s with writes := w :: s.writes.eraseIdx i } l :=
        h.perm (perm_of_getElem? hw)
      refine ⟨hcons.send.perm (set_perm hw), ?_⟩
      intro htracked _
      exact hserial htracked (List.ne_nil_of_mem (List.mem_of_getElem? hw))
    . exact ⟨h, hserial⟩
  | land i =>
    simp only [step, Ledger.note]
    split
    next w hw =>
      split
      next hsent =>
        have hcons : Inv t { s with writes := w :: s.writes.eraseIdx i } l :=
          h.perm (perm_of_getElem? hw)
        refine ⟨hcons.land hsent, ?_⟩
        intro htracked _
        have htask : (s.land w).flushTask = s.flushTask := by
          unfold CacheStore.land
          split <;> rfl
        change (s.land w).flushTask = .running
        rw [htask]
        exact hserial htracked (List.ne_nil_of_mem (List.mem_of_getElem? hw))
      . exact ⟨h, hserial⟩
    . exact ⟨h, hserial⟩

theorem follow_inv (h : Inv t s l) (hserial : Serial t s) {ops : List StoreOp}
    (hops : AllowedAll t s l ops) :
    Inv t (follow t s l ops).1 (follow t s l ops).2 ∧ Serial t (follow t s l ops).1 := by
  induction ops generalizing s l with
  | nil => exact ⟨h, hserial⟩
  | cons op ops ih =>
    obtain ⟨hinv, hserial'⟩ := step_inv h hserial hops.1
    exact ih hinv hserial' hops.2

theorem create_inv (t : StoreTraits) : Inv t (create t) Ledger.empty := by
  have hA := t.head_le
  have hsize : padding t.headerSize t.areaSize = t.areaSize := by
    have hpos := t.header_pos
    have hle := t.header_le
    have hdiv : (t.headerSize + t.areaSize - 1) / t.areaSize = 1 := by
      apply Nat.div_eq_of_lt_le <;> omega
    unfold padding
    rw [hdiv, Nat.one_mul]
  have hfile : (create t).fileSize = t.areaSize := hsize
  have hlt := t.size_lt
  have hnone : ∀ {k i : Nat}, (create t).cache k ≠ some i := fun h => nomatch h
  have hempty : ∀ {k i : Nat}, (∅ : DirtyMap).lookup k ≠ some i := fun h => nomatch h
  constructor
  . refine ⟨?_, ?_, ?_, ?_, ?_, ?_, ?_, ?_, ?_, .nil, ?_, ?_⟩
    . exact ⟨1, by rw [hfile, Nat.mul_one]⟩
    . omega
    . omega
    all_goals
      intro r hr
      cases hr
  . refine ⟨fun _ _ h => absurd h hnone, fun _ _ h => absurd h hnone, ?_,
      fun _ _ h => absurd h hempty, fun _ _ h => absurd h hempty, fun _ _ h => absurd h hempty⟩
    intro i hi
    cases hi
  . constructor
    . intro w hw
      cases hw
    . intro r hr
      cases hr

/-- The areas that `resolve` finds have their latest bytes, and none of them is lost: what is not in
the file is in one of the dirty maps. A synchronous flush that is alone brings them all to the file.
-/
structure Coherent (t : StoreTraits) (s : CacheStore) (l : Ledger) : Prop where
  resolve : ∀ r ∈ l.areas, ∀ offset, Reachable t s l r offset →
    ∃ p, (s.resolve t offset).2 = some p ∧ p.offset = offset - r.start ∧
      ((s.resolve t offset).1.slice p.iref).Shows r l.bytes
  kept : ∀ r ∈ l.areas, l.live r.start = true → r.start ∈ s.dirtyPending ∨
    r.start ∈ s.dirtyCommitted ∨ r.start ∈ s.dirtyInflight ∨
    (s.file.drop r.start).Shows r l.bytes
  flush : s.writes = [] → ∀ r ∈ l.areas, l.live r.start = true →
    ((s.flush t true).file.drop r.start).Shows r l.bytes

theorem Inv.coherent (h : Inv t s l) : Coherent t s l := by
  constructor
  . intro r hr offset hreach
    exact (h.resolve_spec hr hreach).2
  . intro r hr hlive
    rcases h.stored.file r hr hlive with (hin | hin) | hshows | ⟨w, hw, hk⟩
    . exact .inl hin
    . exact .inr (.inl hin)
    . exact .inr (.inr (.inr hshows))
    . obtain ⟨r', hr', hk', hin, _⟩ := h.stored.writes w hw
      rw [h.cache_inj hk hk']
      exact .inr (.inr (.inl hin))
  . intro hnil r hr hlive
    exact h.flush_shows hnil hr hlive

/-- `_StoreTraits` and `_FileOperations` -/
def fileTraits : StoreTraits where
  areaSize := 131072
  headerSize := 4096
  tracked := false
  hasWorkers := true
  head_le := by decide
  size_lt := by decide
  header_pos := by decide
  header_le := by decide

/-- The byte that a caller reads at an offset. -/
def byteAt (t : StoreTraits) (s : CacheStore) (offset : Nat) : Option UInt8 :=
  (s.resolve t offset).2.map fun p => (s.resolve t offset).1.slice p.iref p.offset

/-- What `find_and_remove` does with an area that is larger than needed. -/
def splitCalls (t : StoreTraits) (s : CacheStore) (curr size newHead : Nat) : List StoreOp :=
  let s' := s.step t (.resolve curr)
  match (s.resolve t curr).2, (s'.resolve t (curr + size)).2 with
  | some c, some rest =>
    let restSize := (s'.slice c.iref).size - size
    [.resolve curr, .resolve (curr + size),
      .poke rest.iref rest.offset (toLittle 8 (curr + size) ++ toLittle 4 restSize),
      .poke rest.iref (rest.offset + 16) (toLittle 8 newHead), .makeDirty rest.iref,
      .poke c.iref (c.offset + 8) (toLittle 4 size), .makeDirty c.iref]
  | _, _ => []

end CacheStore
end Leaves
