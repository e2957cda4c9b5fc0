import Leaves.Storage.Coherence

/-!
Every step of a store keeps the invariant, one lemma for each.
-/

namespace Leaves
namespace CacheStore

open Bytes

variable {t : StoreTraits} {s : CacheStore} {l : Ledger}

theorem Laid.unique (h : Laid t s l) {r r' : Range} (hr : r ∈ l.areas) (hr' : r' ∈ l.areas)
    {a : Nat} (ha : r.Has a) (ha' : r'.Has a) : r = r' := by
  apply Classical.byContradiction
  intro hne
  have hsymm : Std.Symm Range.Apart := ⟨fun _ _ hapart => hapart.symm⟩
  have hapart : r.Apart r' := h.apart.forall hr hr' hne
  exact hapart a ha ha'

theorem Laid.has_start (h : Laid t s l) {r : Range} (hr : r ∈ l.areas) : r.Has r.start :=
  ⟨Nat.le_refl _, Nat.lt_add_of_pos_right (h.sizePos r hr)⟩

theorem Laid.eq_of_start (h : Laid t s l) {r r' : Range} (hr : r ∈ l.areas) (hr' : r' ∈ l.areas)
    (hstart : r.start = r'.start) : r = r' := by
  apply h.unique hr hr' (h.has_start hr)
  rw [hstart]
  exact h.has_start hr'

theorem Laid.areaSize_le (h : Laid t s l) {r : Range} (hr : r ∈ l.areas) : t.areaSize ≤ r.size :=
  Nat.le_of_dvd (h.sizePos r hr) (h.sizeDvd r hr)

theorem Laid.head_le (h : Laid t s l) {r : Range} (hr : r ∈ l.areas) : 24 ≤ r.size :=
  Nat.le_trans t.head_le (h.areaSize_le hr)

theorem Laid.heads_of_shows (h : Laid t s l) {r : Range} (hr : r ∈ l.areas) {b : Bytes}
    (hb : b.Shows r l.bytes) : b.Heads r :=
  hb.heads (h.head_le hr) (h.heads r hr)

namespace Inv

variable (h : Inv t s l)
include h

/-- The area of a cached slice. -/
theorem area {k i : Nat} (hk : s.cache k = some i) :
    ∃ r ∈ l.areas, r.start = k ∧ (s.slice i).Shows r l.bytes ∧ (s.slice i).Heads r := by
  obtain ⟨r, hr, hstart, hshows⟩ := h.cached.shows k i hk
  exact ⟨r, hr, hstart, hshows, h.laid.heads_of_shows hr hshows⟩

theorem shows {r : Range} (hr : r ∈ l.areas) {i : Nat} (hi : s.cache r.start = some i) :
    (s.slice i).Shows r l.bytes := by
  obtain ⟨r', hr', hstart, hshows, _⟩ := h.area hi
  rw [h.laid.eq_of_start hr hr' hstart.symm]
  exact hshows

theorem heads {r : Range} (hr : r ∈ l.areas) {i : Nat} (hi : s.cache r.start = some i) :
    (s.slice i).Heads r :=
  h.laid.heads_of_shows hr (h.shows hr hi)

theorem offset_eq {k i : Nat} (hk : s.cache k = some i) : (s.slice i).offset = k := by
  obtain ⟨r, _, hstart, _, hheads⟩ := h.area hk
  rw [hheads.1, hstart]

theorem cache_inj {k k' i : Nat} (hk : s.cache k = some i) (hk' : s.cache k' = some i) :
    k = k' := by
  rw [← h.offset_eq hk, h.offset_eq hk']

/-- A slice that a pointer points to is cached. -/
theorem pinned {i : Nat} (hi : s.Pinned i) : ∃ k, s.cache k = some i := by
  rcases hi with hi | hi | hi | hi | hi
  . exact h.cached.held i hi
  . obtain ⟨⟨k, i⟩, he, rfl⟩ := hi
    exact ⟨k, h.cached.pending k i (AList.mem_lookup_iff.2 he)⟩
  . obtain ⟨⟨k, i⟩, he, rfl⟩ := hi
    exact ⟨k, h.cached.committed k i (AList.mem_lookup_iff.2 he)⟩
  . obtain ⟨⟨k, i⟩, he, rfl⟩ := hi
    exact ⟨k, h.cached.inflight k i (AList.mem_lookup_iff.2 he)⟩
  . obtain ⟨w, hw, rfl⟩ := hi
    obtain ⟨r, _, hcache, _⟩ := h.stored.writes w hw
    exact ⟨r.start, hcache⟩

theorem cached_of_waits {k : Nat} (hk : s.Waits k) : ∃ i, s.cache k = some i := by
  rcases hk with hk | hk
  . obtain ⟨i, hi⟩ := Option.isSome_iff_exists.1 (AList.lookup_isSome.2 hk)
    exact ⟨i, h.cached.pending k i hi⟩
  . obtain ⟨i, hi⟩ := Option.isSome_iff_exists.1 (AList.lookup_isSome.2 hk)
    exact ⟨i, h.cached.committed k i hi⟩

/-- The file has the bytes of a live area that is not cached. -/
theorem file_shows {r : Range} (hr : r ∈ l.areas) (hlive : l.live r.start = true)
    (hnone : s.cache r.start = none) : (s.file.drop r.start).Shows r l.bytes := by
  rcases h.stored.file r hr hlive with hwaits | hshows | hw
  . obtain ⟨i, hi⟩ := h.cached_of_waits hwaits
    rw [hnone] at hi
    cases hi
  . exact hshows
  . obtain ⟨w, _, hi⟩ := hw
    rw [hnone] at hi
    cases hi

theorem dirty_eq_none {k : Nat} (hnone : s.cache k = none) : s.dirty k = none := by
  have hmap : ∀ m : DirtyMap, (∀ k i, m.lookup k = some i → s.cache k = some i) →
      m.lookup k = none := by
    intro m hm
    cases hl : m.lookup k with
    | none => rfl
    | some i =>
      have hi := hm k i hl
      rw [hnone] at hi
      cases hi
  unfold dirty
  rw [hmap _ h.cached.pending, hmap _ h.cached.committed, hmap _ h.cached.inflight]
  rfl

end Inv

/-- What is written and what waits is the same, the cache has what it had. -/
theorem Stored.mono {s' : CacheStore} (h : s.Stored l)
    (hcache : ∀ w ∈ s.writes, ∀ k, s.cache k = some w.slice → s'.cache k = some w.slice)
    (hfile : s'.file = s.file) (hwrites : s'.writes = s.writes)
    (hpending : s'.dirtyPending = s.dirtyPending)
    (hcommitted : s'.dirtyCommitted = s.dirtyCommitted)
    (hinflight : s'.dirtyInflight = s.dirtyInflight) : s'.Stored l := by
  have hwaits : ∀ k, s'.Waits k ↔ s.Waits k := by
    intro k
    unfold Waits
    rw [hpending, hcommitted]
  constructor
  . intro w hw
    rw [hwrites] at hw
    obtain ⟨r, hr, hk, hin, hsent⟩ := h.writes w hw
    refine ⟨r, hr, hcache w hw _ hk, ?_, ?_⟩
    . rw [hinflight]
      exact hin
    . intro b hb
      unfold Sent
      rw [hwaits]
      exact hsent b hb
  . intro r hr hlive
    rw [hwaits, hfile, hwrites]
    rcases h.file r hr hlive with hw | hshows | ⟨w, hw, hk⟩
    . exact .inl hw
    . exact .inr (.inl hshows)
    . exact .inr (.inr ⟨w, hw, hcache w hw _ hk⟩)

theorem Laid.congr {s' : CacheStore} (h : Laid t s l) (hsize : s'.fileSize = s.fileSize) :
    Laid t s' l := by
  obtain ⟨h1, h2, h3, h4, h5, h6, h7, h8, h9, h10, h11, h12⟩ := h
  refine ⟨?_, ?_, ?_, h4, h5, h6, h7, h8, ?_, h10, h11, h12⟩ <;> rw [hsize]
  . exact h1
  . exact h2
  . exact h3
  . exact h9

namespace Inv

theorem evict (h : Inv t s l) (key : Nat) : Inv t (s.evict key) l := by
  unfold CacheStore.evict
  split
  next slice hkey =>
    split
    . exact h
    next hpin =>
      -- what someone points to is another slice
      have hother : ∀ k i, s.Pinned i → s.cache k = some i →
          Function.update s.cache key none k = some i := by
        intro k i hi hk
        rw [Function.update_of_ne, hk]
        intro heq
        rw [heq, hkey] at hk
        cases hk
        exact hpin hi
      have hsub : ∀ k i, Function.update s.cache key none k = some i → s.cache k = some i := by
        intro k i hk
        by_cases heq : k = key
        . rw [heq, Function.update_self] at hk
          cases hk
        . rwa [Function.update_of_ne heq] at hk
      refine ⟨h.laid.congr rfl, ⟨?_, ?_, ?_, ?_, ?_, ?_⟩, ?_⟩
      . intro k i hk
        exact h.cached.slices k i (hsub k i hk)
      . intro k i hk
        exact h.cached.shows k i (hsub k i hk)
      . intro i hi
        obtain ⟨k, hk⟩ := h.cached.held i hi
        exact ⟨k, hother k i (.inl hi) hk⟩
      . intro k i hi
        exact hother k i (.inr (.inl ⟨⟨k, i⟩, AList.mem_lookup_iff.1 hi, rfl⟩))
          (h.cached.pending k i hi)
      . intro k i hi
        exact hother k i (.inr (.inr (.inl ⟨⟨k, i⟩, AList.mem_lookup_iff.1 hi, rfl⟩)))
          (h.cached.committed k i hi)
      . intro k i hi
        exact hother k i (.inr (.inr (.inr (.inl ⟨⟨k, i⟩, AList.mem_lookup_iff.1 hi, rfl⟩))))
          (h.cached.inflight k i hi)
      . refine h.stored.mono ?_ rfl rfl rfl rfl rfl
        intro w hw k hk
        exact hother k w.slice (.inr (.inr (.inr (.inr ⟨w, hw, rfl⟩)))) hk
  . exact h

/-- The pointers the callers have are to slices that are cached. -/
theorem withHeld (h : Inv t s l) {held : List Nat} (hheld : ∀ i ∈ held, ∃ k, s.cache k = some i) :
    Inv t { s with held } l := by
  refine ⟨h.laid.congr rfl, ?_, ?_⟩
  . exact ⟨h.cached.slices, h.cached.shows, hheld, h.cached.pending, h.cached.committed,
      h.cached.inflight⟩
  . refine h.stored.mono ?_ rfl rfl rfl rfl rfl
    intro _ _ _ hk
    exact hk

theorem hold (h : Inv t s l) {slice : Nat} (hslice : ∃ k, s.cache k = some slice) (offset : Nat) :
    Inv t (s.hold slice offset).1 l := by
  apply h.withHeld
  intro i hi
  rcases List.mem_cons.1 hi with rfl | hi
  . exact hslice
  . exact h.cached.held i hi

theorem release (h : Inv t s l) (slice : Nat) : Inv t { s with held := s.held.erase slice } l := by
  apply h.withHeld
  intro i hi
  exact h.cached.held i (List.mem_of_mem_erase hi)

/-- A slice is made for an area that is not cached. -/
theorem enter (h : Inv t s l) {r : Range} (hr : r ∈ l.areas) (hnone : s.cache r.start = none)
    {b : Bytes} (hb : b.Shows r l.bytes) :
    Inv t ((s.newSlice b).put r.start s.slices) l ∧
      ((s.newSlice b).put r.start s.slices).cache r.start = some s.slices ∧
      (((s.newSlice b).put r.start s.slices).slice s.slices).Shows r l.bytes := by
  have hput : (s.newSlice b).put r.start s.slices =
      { s.newSlice b with cache := Function.update s.cache r.start (some s.slices) } := by
    unfold put
    rw [if_neg]
    . rfl
    . change ¬(s.cache r.start).isSome = true
      rw [hnone]
      exact Bool.false_ne_true
  have hkeep : ∀ k i, s.cache k = some i →
      Function.update s.cache r.start (some s.slices) k = some i := by
    intro k i hk
    rw [Function.update_of_ne, hk]
    intro heq
    rw [heq, hnone] at hk
    cases hk
  have hnew : (Function.update s.slice s.slices (b.setRef 0) s.slices).Shows r l.bytes := by
    rw [Function.update_self]
    exact hb.setRef 0
  rw [hput]
  refine ⟨⟨h.laid.congr rfl, ⟨?_, ?_, ?_, ?_, ?_, ?_⟩, ?_⟩, Function.update_self .., hnew⟩
  . intro k i hk
    change Function.update s.cache r.start (some s.slices) k = some i at hk
    change i < s.slices + 1
    by_cases heq : k = r.start
    . rw [heq, Function.update_self] at hk
      cases hk
      exact Nat.lt_succ_self _
    . rw [Function.update_of_ne heq] at hk
      exact Nat.lt_succ_of_lt (h.cached.slices k i hk)
  . intro k i hk
    change Function.update s.cache r.start (some s.slices) k = some i at hk
    change ∃ r' ∈ l.areas, r'.start = k ∧ (Function.update s.slice s.slices _ i).Shows r' l.bytes
    by_cases heq : k = r.start
    . rw [heq, Function.update_self] at hk
      cases hk
      exact ⟨r, hr, heq.symm, hnew⟩
    . rw [Function.update_of_ne heq] at hk
      rw [Function.update_of_ne (Nat.ne_of_lt (h.cached.slices k i hk))]
      exact h.cached.shows k i hk
  . intro i hi
    obtain ⟨k, hk⟩ := h.cached.held i hi
    exact ⟨k, hkeep k i hk⟩
  . intro k i hi
    exact hkeep k i (h.cached.pending k i hi)
  . intro k i hi
    exact hkeep k i (h.cached.committed k i hi)
  . intro k i hi
    exact hkeep k i (h.cached.inflight k i hi)
  . refine h.stored.mono ?_ rfl rfl rfl rfl rfl
    intro w _ k hk
    exact hkeep k w.slice hk

section Resolve

variable (h : Inv t s l) {r : Range} (hr : r ∈ l.areas)
include h hr

/-- Inside of an area no other area starts. -/
theorem cache_eq_none {k : Nat} (hk : r.Has k) (hne : k ≠ r.start) : s.cache k = none := by
  cases hcache : s.cache k with
  | none => rfl
  | some i =>
    obtain ⟨r', hr', hstart, _⟩ := h.area hcache
    have heq : r = r' := by
      apply h.laid.unique hr hr' hk
      rw [← hstart]
      exact h.laid.has_start hr'
    rw [heq] at hne
    exact absurd hstart.symm hne

/-- The walk backwards comes to the start of the area. -/
theorem probe_hit {i areaOffset : Nat} (hi : s.cache r.start = some i)
    (hlt : areaOffset < r.start + r.size) (n j : Nat) (hj : 0 < j) (hn : j ≤ n) (hle : r.start + j * t.areaSize ≤ areaOffset) :
    s.probe t areaOffset n (r.start + j * t.areaSize) = some i := by
  induction n generalizing j with
  | zero => omega
  | succ n ih =>
    obtain ⟨j, rfl⟩ : ∃ j', j = j' + 1 := ⟨j - 1, by omega⟩
    have hpos : r.start + (j + 1) * t.areaSize = r.start + j * t.areaSize + t.areaSize := by
      rw [Nat.succ_mul, Nat.add_assoc]
    rw [hpos] at hle ⊢
    rw [probe, if_neg (by omega), Nat.add_sub_cancel]
    by_cases hzero : j = 0
    . subst hzero
      have hheads := h.heads hr hi
      rw [Nat.zero_mul, Nat.add_zero, hi]
      change (if (s.slice i).offset + (s.slice i).size ≤ areaOffset then none else some i) = some i
      rw [hheads.1, hheads.2, if_neg (by omega)]
    . have hA := t.head_le
      have hmul : 0 < j * t.areaSize := Nat.mul_pos (by omega) (by omega)
      have hnone : s.cache (r.start + j * t.areaSize) = none := by
        apply h.cache_eq_none hr
        . exact ⟨by omega, by omega⟩
        . omega
      rw [hnone]
      exact ih j (by omega) (by omega) (by omega)

/-- The walk backwards does not take an earlier area for this one. -/
theorem probe_miss (n pos : Nat) (hle : pos ≤ r.start) : s.probe t r.start n pos = none := by
  induction n generalizing pos with
  | zero => rfl
  | succ n ih =>
    rw [probe]
    split
    . rfl
    next hpos =>
      have hA := t.head_le
      cases hcache : s.cache (pos - t.areaSize) with
      | none => exact ih _ (by omega)
      | some i =>
        obtain ⟨r', hr', hstart, _, hheads⟩ := h.area hcache
        have hne : r' ≠ r := by
          intro heq
          rw [heq] at hstart
          omega
        have hsymm : Std.Symm Range.Apart := ⟨fun _ _ hapart => hapart.symm⟩
        have hapart : r'.Apart r := h.laid.apart.forall hr' hr hne
        rw [Range.apart_iff (h.laid.sizePos r' hr') (h.laid.sizePos r hr)] at hapart
        have hend : r'.start + r'.size ≤ r.start := by
          have hsize := h.laid.sizePos r hr
          omega
        change (if (s.slice i).offset + (s.slice i).size ≤ r.start then none else some i) = none
        rw [hheads.1, hheads.2, if_pos hend]

theorem areaOffset_eq {offset : Nat} (hoff : r.Has offset) :
    ∃ j, offset - offset % t.areaSize = r.start + j * t.areaSize ∧
      r.start + j * t.areaSize ≤ offset ∧ offset < r.start + j * t.areaSize + t.areaSize := by
  have hA := t.head_le
  obtain ⟨q, hq⟩ := h.laid.startDvd r hr
  have hdiv := Nat.div_add_mod offset t.areaSize
  have hmod : offset % t.areaSize < t.areaSize := Nat.mod_lt _ (by omega)
  have hqle : q ≤ offset / t.areaSize := by
    rw [Nat.le_div_iff_mul_le (by omega), Nat.mul_comm, ← hq]
    exact hoff.1
  refine ⟨offset / t.areaSize - q, ?_⟩
  have hmul : r.start + (offset / t.areaSize - q) * t.areaSize =
      t.areaSize * (offset / t.areaSize) := by
    rw [hq, Nat.mul_comm _ t.areaSize, ← Nat.mul_add, Nat.add_sub_cancel' hqle]
  rw [hmul]
  omega

theorem cached_hit {i offset : Nat} (hi : s.cache r.start = some i) (hoff : r.Has offset) :
    s.cached t (offset - offset % t.areaSize) = some i := by
  obtain ⟨j, heq, hle, _⟩ := h.areaOffset_eq hr hoff
  have hlt := hoff.2
  rw [heq, CacheStore.cached]
  by_cases hzero : j = 0
  . rw [hzero, Nat.zero_mul, Nat.add_zero, hi]
  . have hA := t.head_le
    have hmul : 0 < j * t.areaSize := Nat.mul_pos (by omega) (by omega)
    have hnone : s.cache (r.start + j * t.areaSize) = none := by
      apply h.cache_eq_none hr
      . exact ⟨by omega, by omega⟩
      . omega
    rw [hnone]
    apply h.probe_hit hr hi (by omega) _ _ (by omega)
    . rw [Nat.le_div_iff_mul_le (by omega)]
      omega
    . exact Nat.le_refl _

theorem cached_miss (hnone : s.cache r.start = none) : s.cached t r.start = none := by
  rw [CacheStore.cached, hnone]
  exact h.probe_miss hr _ _ (Nat.le_refl _)

/-- What is read from the file are the bytes of the area. -/
theorem load_shows (hshows : (s.file.drop r.start).Shows r l.bytes) :
    (s.load r.start).Shows r l.bytes := by
  have hheads := h.laid.heads_of_shows hr hshows
  intro i hi href
  unfold load
  have hsize : Bytes.size (fun i => s.file (r.start + i)) = r.size := hheads.2
  simp only [hsize, if_pos hi]
  exact hshows i hi href

/-- A pointer into the latest bytes of the area. -/
theorem resolve_spec {offset : Nat} (hreach : Reachable t s l r offset) :
    Inv t (s.resolve t offset).1 l ∧
      ∃ p, (s.resolve t offset).2 = some p ∧ p.offset = offset - r.start ∧
        ((s.resolve t offset).1.slice p.iref).Shows r l.bytes := by
  obtain ⟨hoff, hor⟩ := hreach
  have hzero : offset ≠ 0 := by
    have hstart := h.laid.startPos r hr
    have hle := hoff.1
    omega
  have hmod : (offset - r.start) % 2 ^ 32 = offset - r.start := by
    apply Nat.mod_eq_of_lt
    have hsize := h.laid.sizeLt r hr
    have hlt := hoff.2
    omega
  cases hi : s.cache r.start with
  | some i =>
    have hres : s.resolve t offset = s.hold i (offset - r.start) := by
      unfold resolve
      rw [if_neg hzero]
      simp only [h.cached_hit hr hi hoff]
      rw [h.offset_eq hi]
    rw [hres]
    exact ⟨h.hold ⟨_, hi⟩ _, ⟨i, _⟩, rfl, hmod, h.shows hr hi⟩
  | none =>
    rw [hi] at hor
    obtain ⟨hlive, hlt⟩ := hor.resolve_left Bool.false_ne_true
    have hstart : offset - offset % t.areaSize = r.start := by
      obtain ⟨j, heq, hle, _⟩ := h.areaOffset_eq hr hoff
      by_cases hj : j = 0
      . rw [heq, hj, Nat.zero_mul, Nat.add_zero]
      . have hA : t.areaSize ≤ j * t.areaSize := Nat.le_mul_of_pos_left _ (by omega)
        omega
    have hres : s.resolve t offset =
        ((s.newSlice (s.load r.start)).put r.start s.slices).hold s.slices (offset - r.start) := by
      unfold resolve
      rw [if_neg hzero]
      simp only [hstart, h.cached_miss hr hi, h.dirty_eq_none hi]
    have hload := h.load_shows hr (h.file_shows hr hlive hi)
    obtain ⟨hinv, hcache, hshows⟩ := h.enter hr hi hload
    rw [hres]
    exact ⟨hinv.hold ⟨_, hcache⟩ _, ⟨s.slices, _⟩, rfl, hmod, hshows⟩

end Resolve

/-- An area at the end of the file, which is not cached yet. -/
theorem extend (h : Inv t s l) {size : Nat} (memory : Bytes) (hdvd : t.areaSize ∣ size)
    (hpos : 0 < size) (hsize : size < 2 ^ 32) (hfile : s.fileSize + size < 2 ^ 64) :
    Inv t { s with fileSize := s.fileSize + size, headerDirty := true }
      (l.allocate s.fileSize size memory) := by
  let r : Range := ⟨s.fileSize, size⟩
  -- the bytes of the other areas are before the new one
  have hold : ∀ r' ∈ l.areas, ∀ a, r'.Has a →
      (l.allocate s.fileSize size memory).bytes a = l.bytes a := by
    intro r' hr' a ha
    apply store_of_not (r := r)
    intro ha'
    have hinside := h.laid.inside r' hr'
    have hle : s.fileSize ≤ a := ha'.1
    have hlt := ha.2
    omega
  have hstart : ∀ r' ∈ l.areas, r'.start ≠ s.fileSize := by
    intro r' hr' heq
    have hinside := h.laid.inside r' hr'
    have hsize := h.laid.sizePos r' hr'
    omega
  have hnew : ((l.allocate s.fileSize size memory).bytes.drop s.fileSize).Heads r := by
    have hinit : (memory.init s.fileSize size 0).Heads r :=
      ⟨init_offset _ h.laid.fileLt, init_size _ hsize⟩
    apply hinit.congr
    intro i hi
    have hA := t.head_le
    have hle := Nat.le_of_dvd hpos hdvd
    have hhas : r.Has (s.fileSize + i) := by
      change s.fileSize ≤ s.fileSize + i ∧ s.fileSize + i < s.fileSize + size
      omega
    change l.bytes.store r.start r.size _ (s.fileSize + i) = _
    rw [store_of_has hhas]
    congr 1
    exact Nat.add_sub_cancel_left ..
  constructor
  . constructor
    . exact Nat.dvd_add h.laid.fileDvd hdvd
    . exact Nat.add_pos_right _ hpos
    . exact hfile
    . exact List.forall_mem_cons.2 ⟨h.laid.fileDvd, h.laid.startDvd⟩
    . exact List.forall_mem_cons.2 ⟨hdvd, h.laid.sizeDvd⟩
    . exact List.forall_mem_cons.2 ⟨h.laid.filePos, h.laid.startPos⟩
    . exact List.forall_mem_cons.2 ⟨hpos, h.laid.sizePos⟩
    . exact List.forall_mem_cons.2 ⟨hsize, h.laid.sizeLt⟩
    . refine List.forall_mem_cons.2 ⟨Nat.le_refl _, ?_⟩
      intro r' hr'
      exact Nat.le_add_right_of_le (h.laid.inside r' hr')
    . apply List.pairwise_cons.2
      refine ⟨?_, h.laid.apart⟩
      intro r' hr' a ha ha'
      have hinside := h.laid.inside r' hr'
      have hle : s.fileSize ≤ a := ha.1
      have hlt := ha'.2
      omega
    . refine List.forall_mem_cons.2 ⟨hnew, ?_⟩
      intro r' hr'
      apply (h.laid.heads r' hr').congr
      intro i hi
      have hhead := h.laid.head_le hr'
      apply hold r' hr'
      exact ⟨Nat.le_add_right _ _, by omega⟩
    . intro k hk
      obtain ⟨r', hr', heq⟩ := h.laid.live k hk
      exact ⟨r', List.mem_cons_of_mem _ hr', heq⟩
  . refine ⟨h.cached.slices, ?_, h.cached.held, h.cached.pending, h.cached.committed,
      h.cached.inflight⟩
    intro k i hk
    obtain ⟨r', hr', heq, hshows⟩ := h.cached.shows k i hk
    exact ⟨r', List.mem_cons_of_mem _ hr', heq, hshows.congr (hold r' hr')⟩
  . constructor
    . intro w hw
      obtain ⟨r', hr', hk, hin, hsent⟩ := h.stored.writes w hw
      refine ⟨r', List.mem_cons_of_mem _ hr', hk, hin, ?_⟩
      intro b hb
      obtain ⟨hheads, hor⟩ := hsent b hb
      refine ⟨hheads, hor.imp_right (Or.imp_right ?_)⟩
      intro hshows
      exact hshows.congr (hold r' hr')
    . intro r' hr' hlive
      rcases List.mem_cons.1 hr' with rfl | hr'
      . -- the new area is not live
        obtain ⟨r'', hr'', heq⟩ := h.laid.live _ hlive
        exact absurd heq (hstart r'' hr'')
      . refine (h.stored.file r' hr' hlive).imp_right (Or.imp_left ?_)
        intro hshows
        exact hshows.congr (hold r' hr')

theorem emplaceNewArea (h : Inv t s l) {size : Nat} (memory : Bytes) (hdvd : t.areaSize ∣ size)
    (hpos : 0 < size) (hsize : size < 2 ^ 32) (hfile : s.fileSize + size < 2 ^ 64) :
    Inv t (s.emplaceNewArea size memory) (l.allocate s.fileSize size memory) := by
  have hext := h.extend memory hdvd hpos hsize hfile
  have hmem : ⟨s.fileSize, size⟩ ∈ (l.allocate s.fileSize size memory).areas :=
    List.mem_cons_self
  have hnone : s.cache s.fileSize = none := by
    cases hcache : s.cache s.fileSize with
    | none => rfl
    | some i =>
      obtain ⟨r, hr, hstart, _⟩ := h.area hcache
      have hinside := h.laid.inside r hr
      have hrpos := h.laid.sizePos r hr
      omega
  have hshows : (memory.init s.fileSize size 0).Shows ⟨s.fileSize, size⟩
      (l.allocate s.fileSize size memory).bytes := by
    intro i hi _
    change _ = l.bytes.store s.fileSize size _ (s.fileSize + i)
    unfold Bytes.store
    rw [if_pos ⟨Nat.le_add_right _ _, Nat.add_lt_add_left hi _⟩, Nat.add_sub_cancel_left]
  obtain ⟨hinv, hcache, _⟩ := hext.enter hmem hnone hshows
  exact hinv.hold ⟨_, hcache⟩ 0

/-- The bytes are written in the slice and in the ledger, the area is not live until it is made
dirty. -/
theorem poke (h : Inv t s l) {slice pos : Nat} {data : List UInt8} (hheld : slice ∈ s.held)
    (hsize : pos + data.length ≤ (s.slice slice).size)
    (hoffset : ((s.slice slice).write pos data).offset = (s.slice slice).offset)
    (hsize' : ((s.slice slice).write pos data).size = (s.slice slice).size) :
    Inv t (s.poke slice pos data)
      { l with
        bytes := l.bytes.write ((s.slice slice).offset + pos) data,
        live := Function.update l.live (s.slice slice).offset false } := by
  obtain ⟨k, hk⟩ := h.cached.held slice hheld
  obtain ⟨r, hr, rfl, hshows, hheads⟩ := h.area hk
  rw [hheads.2] at hsize
  rw [hheads.1]
  let mem' := l.bytes.write (r.start + pos) data
  have hother : ∀ r' ∈ l.areas, r' ≠ r → ∀ a, r'.Has a → mem' a = l.bytes a := by
    intro r' hr' hne a ha
    have hout : ¬r.Has a := fun ha' => hne (h.laid.unique hr' hr ha ha')
    by_cases hlt : a < r.start + pos
    . exact write_of_lt hlt
    . apply write_of_le
      unfold Range.Has at hout
      omega
  have hsame : ((s.slice slice).write pos data).Shows r mem' := by
    intro i hi href
    change Bytes.write _ _ _ _ = Bytes.write _ _ _ _
    unfold Bytes.write
    have hiff : (pos ≤ i ∧ i < pos + data.length) ↔
        (r.start + pos ≤ r.start + i ∧ r.start + i < r.start + pos + data.length) := by
      omega
    rw [hshows i hi href]
    by_cases hin : pos ≤ i ∧ i < pos + data.length
    . rw [if_pos hin, if_pos (hiff.1 hin)]
      congr 1
      omega
    . rw [if_neg hin, if_neg (fun hin' => hin (hiff.2 hin'))]
  have hdead : ∀ r' : Range, Function.update l.live r.start false r'.start = true →
      r'.start ≠ r.start ∧ l.live r'.start = true := by
    intro r' hlive
    by_cases heq : r'.start = r.start
    . rw [heq, Function.update_self] at hlive
      cases hlive
    . rw [Function.update_of_ne heq] at hlive
      exact ⟨heq, hlive⟩
  have hslice : ∀ k' i, s.cache k' = some i → k' ≠ r.start →
      Function.update s.slice slice ((s.slice slice).write pos data) i = s.slice i := by
    intro k' i hi hne
    apply Function.update_of_ne
    intro heq
    rw [heq] at hi
    exact hne (h.cache_inj hi hk)
  constructor
  . obtain ⟨h1, h2, h3, h4, h5, h6, h7, h8, h9, h10, h11, h12⟩ := h.laid
    refine ⟨h1, h2, h3, h4, h5, h6, h7, h8, h9, h10, ?_, ?_⟩
    . intro r' hr'
      by_cases heq : r' = r
      . have hnew : ((s.slice slice).write pos data).Heads r :=
          ⟨hoffset.trans hheads.1, hsize'.trans hheads.2⟩
        have hhead := h.laid.head_le hr
        rw [heq]
        apply hnew.congr
        intro i hi
        rw [hsame i (by omega) (by omega)]
        rfl
      . apply (h11 r' hr').congr
        intro i hi
        have hhead := h.laid.head_le hr'
        apply hother r' hr' heq
        exact ⟨Nat.le_add_right _ _, by omega⟩
    . intro k' hlive
      exact h12 k' (hdead ⟨k', 0⟩ hlive).2
  . refine ⟨h.cached.slices, ?_, h.cached.held, h.cached.pending, h.cached.committed,
      h.cached.inflight⟩
    intro k' i hi
    change s.cache k' = some i at hi
    change ∃ r' ∈ l.areas, r'.start = k' ∧
      (Function.update s.slice slice ((s.slice slice).write pos data) i).Shows r' mem'
    by_cases heq : k' = r.start
    . rw [heq, hk] at hi
      cases hi
      rw [Function.update_self]
      exact ⟨r, hr, heq.symm, hsame⟩
    . rw [hslice k' i hi heq]
      obtain ⟨r', hr', hstart, hshows'⟩ := h.cached.shows k' i hi
      refine ⟨r', hr', hstart, hshows'.congr (hother r' hr' ?_)⟩
      intro hrr
      rw [hrr] at hstart
      exact heq hstart.symm
  . constructor
    . intro w hw
      obtain ⟨r', hr', hi, hin, hsent⟩ := h.stored.writes w hw
      refine ⟨r', hr', hi, hin, ?_⟩
      intro b hb
      obtain ⟨hheads', hor⟩ := hsent b hb
      refine ⟨hheads', ?_⟩
      by_cases heq : r'.start = r.start
      . refine .inr (.inl ?_)
        change Function.update l.live r.start false r'.start = false
        rw [heq, Function.update_self]
      . have hne : r' ≠ r := fun hrr => heq (congrArg Range.start hrr)
        change s.Waits r'.start ∨ Function.update l.live r.start false r'.start = false ∨ _
        rw [Function.update_of_ne heq]
        refine hor.imp_right (Or.imp_right ?_)
        intro hshows'
        exact hshows'.congr (hother r' hr' hne)
    . intro r' hr' hlive
      obtain ⟨hne, hlive⟩ := hdead r' hlive
      refine (h.stored.file r' hr' hlive).imp_right (Or.imp_left ?_)
      intro hshows'
      exact hshows'.congr (hother r' hr' fun hrr => hne (congrArg Range.start hrr))

theorem makeDirty (h : Inv t s l) {slice : Nat} (hheld : slice ∈ s.held) :
    Inv t (s.makeDirty slice)
      { l with live := Function.update l.live (s.slice slice).offset true } := by
  obtain ⟨k, hk⟩ := h.cached.held slice hheld
  obtain ⟨r, hr, rfl, _, hheads⟩ := h.area hk
  unfold CacheStore.makeDirty
  rw [hheads.1]
  have hwaits : ∀ k, s.Waits k →
      k ∈ s.dirtyPending.insert r.start slice ∨ k ∈ s.dirtyCommitted := by
    intro k hk
    exact hk.imp_left fun hin => (AList.mem_insert _).2 (.inr hin)
  have hin : r.start ∈ s.dirtyPending.insert r.start slice := (AList.mem_insert _).2 (.inl rfl)
  constructor
  . obtain ⟨h1, h2, h3, h4, h5, h6, h7, h8, h9, h10, h11, h12⟩ := h.laid
    refine ⟨h1, h2, h3, h4, h5, h6, h7, h8, h9, h10, h11, ?_⟩
    intro k' hlive
    by_cases heq : k' = r.start
    . exact ⟨r, hr, heq.symm⟩
    . apply h12 k'
      change Function.update l.live r.start true k' = true at hlive
      rwa [Function.update_of_ne heq] at hlive
  . refine ⟨h.cached.slices, h.cached.shows, h.cached.held, ?_, h.cached.committed,
      h.cached.inflight⟩
    intro k' i hi
    change (s.dirtyPending.insert r.start slice).lookup k' = some i at hi
    by_cases heq : k' = r.start
    . rw [heq, AList.lookup_insert] at hi
      cases hi
      rw [heq]
      exact hk
    . rw [AList.lookup_insert_ne heq] at hi
      exact h.cached.pending k' i hi
  . constructor
    . intro w hw
      obtain ⟨r', hr', hi, hinflight, hsent⟩ := h.stored.writes w hw
      refine ⟨r', hr', hi, hinflight, ?_⟩
      intro b hb
      obtain ⟨hheads', hor⟩ := hsent b hb
      refine ⟨hheads', ?_⟩
      by_cases heq : r'.start = r.start
      . refine .inl (.inl ?_)
        rw [heq]
        exact hin
      . change _ ∨ Function.update l.live r.start true r'.start = false ∨ _
        rw [Function.update_of_ne heq]
        exact hor.imp_left (hwaits _)
    . intro r' hr' hlive
      by_cases heq : r'.start = r.start
      . refine .inl (.inl ?_)
        rw [heq]
        exact hin
      . change Function.update l.live r.start true r'.start = true at hlive
        rw [Function.update_of_ne heq] at hlive
        exact (h.stored.file r' hr' hlive).imp_left (hwaits _)

end Inv
end CacheStore
end Leaves
