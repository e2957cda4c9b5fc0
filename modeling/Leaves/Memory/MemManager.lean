import Leaves.Core.Node

/-!
The page allocator of a transaction, `memory/_memory.hpp`. Every size class has a queue of freed
pages, other pages are cut off the areas the storage hands out. A queue is modelled by its content:
the containers a queue is written into are left out, and so are the pages they take.
-/

namespace Leaves

/-- `Traits::PAGE_SIZES`: the size classes of pages, sorted. -/
def PAGE_SIZES : List Nat := [40, 56, 64, 128, 176, 560, 1032, 1544, 2096, 4096]

/-- `Traits::PAGE_SIZES_COUNT` -/
def PAGE_SIZES_COUNT : Nat := 10

/-- `Traits::AREA_SIZE` -/
def AREA_SIZE : Nat := 2 * 1024 * 1024

/-- `sizeof(Area)` -/
def AREA_HEADER_SIZE : Nat := 24

def pageSize (sidx : Nat) : Nat := PAGE_SIZES[sidx]?.getD 0

/-- The smallest size class a page of `size` bytes fits in, `PAGE_SIZES_COUNT` if there is none. -/
def assignSlot (size : Nat) : Nat := PAGE_SIZES.findIdx (fun s => size ≤ s)

/-- The areas a storage hands out one after the other. They never overlap. -/
structure Storage where
  area : Nat → Nat
  pos : ∀ i, 0 < area i
  disjoint : ∀ i j, i ≠ j → area i + AREA_SIZE ≤ area j ∨ area j + AREA_SIZE ≤ area i

/-- A freed page and the transaction that freed it. -/
structure BlockItem where
  link : Nat
  txnId : Nat
  deriving DecidableEq, Repr, Inhabited

structure MemManager where
  allocationStart : Nat
  allocationEnd : Nat
  leftOverStart : Nat
  leftOverEnd : Nat
  /-- the queues of freed pages, the oldest first -/
  slots : Nat → List BlockItem

namespace MemManager

/-- The rest of the current area replaces the rest of an earlier one if it is bigger. -/
def saveLeftOver (m : MemManager) : MemManager :=
  if m.leftOverEnd - m.leftOverStart < m.allocationEnd - m.allocationStart then
    { m with leftOverStart := m.allocationStart, leftOverEnd := m.allocationEnd }
  else
    m

/-- A page cut off what is left of the areas. The flag says that the new area has been taken. -/
def carve (m : MemManager) (bsize : Nat) (area : Nat) : Nat × MemManager × Bool :=
  if m.leftOverStart + bsize ≤ m.leftOverEnd then
    (m.leftOverStart, { m with leftOverStart := m.leftOverStart + bsize }, false)
  else if m.allocationEnd < m.allocationStart + bsize then
    (area + AREA_HEADER_SIZE,
      { m.saveLeftOver with
        allocationStart := area + AREA_HEADER_SIZE + bsize, allocationEnd := area + AREA_SIZE },
      true)
  else
    (m.allocationStart, { m with allocationStart := m.allocationStart + bsize }, false)

/--
`alloc`: the oldest page of the size class if it was freed by a transaction before `startTxnId`,
otherwise a new page.
-/
def alloc (m : MemManager) (sidx : Nat) (startTxnId : Nat) (area : Nat) :
    Nat × MemManager × Bool :=
  match m.slots sidx with
  | [] => m.carve (pageSize sidx) area
  | item :: items =>
    if item.txnId < startTxnId then
      (item.link, { m with slots := fun s => if s = sidx then items else m.slots s }, false)
    else
      m.carve (pageSize sidx) area

/-- `free`: the page is queued until no reader can see it any more. -/
def free (m : MemManager) (sidx : Nat) (item : BlockItem) : MemManager :=
  { m with slots := fun s => if s = sidx then m.slots s ++ [item] else m.slots s }

/-- The addresses of the page memory that has not been handed out yet. -/
def Uncarved (m : MemManager) (a : Nat) : Prop :=
  m.allocationStart ≤ a ∧ a < m.allocationEnd ∨ m.leftOverStart ≤ a ∧ a < m.leftOverEnd

/-- The page is in a queue. -/
def Queued (m : MemManager) (a : Nat) : Prop := ∃ s, ∃ item ∈ m.slots s, item.link = a

/-- The page is in a queue and no reader can see it. -/
def Recyclable (m : MemManager) (startTxnId : Nat) (a : Nat) : Prop :=
  ∃ s, ∃ item ∈ m.slots s, item.link = a ∧ item.txnId < startTxnId

theorem Recyclable.queued {m : MemManager} {startTxnId : Nat} {a : Nat}
    (h : m.Recyclable startTxnId a) : m.Queued a := by
  obtain ⟨s, item, hitem, hlink, -⟩ := h
  exact ⟨s, item, hitem, hlink⟩

end MemManager

/-- The areas that have not been handed out yet. -/
def Storage.Future (st : Storage) (count : Nat) (a : Nat) : Prop :=
  ∃ i, count ≤ i ∧ st.area i ≤ a ∧ a < st.area i + AREA_SIZE

theorem Storage.Future.ne_zero {st : Storage} {count : Nat} {a : Nat} (h : st.Future count a) :
    a ≠ 0 := by
  obtain ⟨i, -, hle, -⟩ := h
  have := st.pos i
  omega

theorem Storage.Future.of_succ {st : Storage} {count : Nat} {a : Nat} (h : st.Future (count + 1) a) :
    st.Future count a := by
  obtain ⟨i, hi, h⟩ := h
  exact ⟨i, by omega, h⟩

/-- An area that is taken is not handed out again. -/
theorem Storage.not_future_succ {st : Storage} {count : Nat} {a : Nat} (hle : st.area count ≤ a)
    (hlt : a < st.area count + AREA_SIZE) : ¬ st.Future (count + 1) a := by
  rintro ⟨i, hi, hle', hlt'⟩
  rcases st.disjoint count i (by omega) with h | h
  . omega
  . omega

namespace MemManager

/-- The allocator knows every page at most once. -/
structure Sound (m : MemManager) (st : Storage) (count : Nat) : Prop where
  nodup : ∀ s, ((m.slots s).map (·.link)).Nodup
  disjoint : ∀ s s', s ≠ s' → ∀ x ∈ m.slots s, ∀ y ∈ m.slots s', x.link ≠ y.link
  queued : ∀ a, m.Queued a → a ≠ 0 ∧ ¬ m.Uncarved a ∧ ¬ st.Future count a
  uncarved : ∀ a, m.Uncarved a → a ≠ 0 ∧ ¬ st.Future count a
  leftOver : ∀ a, m.allocationStart ≤ a → a < m.allocationEnd →
    ¬ (m.leftOverStart ≤ a ∧ a < m.leftOverEnd)

theorem pageSize_pos {sidx : Nat} (h : sidx < PAGE_SIZES_COUNT) :
    0 < pageSize sidx ∧ pageSize sidx ≤ 4096 := by
  have : ∀ i < PAGE_SIZES_COUNT, 0 < pageSize i ∧ pageSize i ≤ 4096 := by decide
  exact this sidx h

/-- The page is not in use: it has been freed, or never been handed out. -/
def Avail (m : MemManager) (st : Storage) (count : Nat) (a : Nat) : Prop :=
  m.Queued a ∨ m.Uncarved a ∨ st.Future count a

/-- The page may be handed out next. -/
def Free (m : MemManager) (st : Storage) (count : Nat) (startTxnId : Nat) (a : Nat) : Prop :=
  m.Recyclable startTxnId a ∨ m.Uncarved a ∨ st.Future count a

theorem Free.avail {m : MemManager} {st : Storage} {count startTxnId a : Nat}
    (h : m.Free st count startTxnId a) : m.Avail st count a :=
  h.imp_left Recyclable.queued

theorem Sound.ne_zero {m : MemManager} {st : Storage} {count a : Nat} (hs : m.Sound st count)
    (h : m.Avail st count a) : a ≠ 0 := by
  rcases h with h | h | h
  . exact (hs.queued a h).1
  . exact (hs.uncarved a h).1
  . exact h.ne_zero

/-- What `carve` does: a new page that is not available any more. -/
structure Carves (m m' : MemManager) (st : Storage) (count : Nat) (a : Nat) (used : Bool) :
    Prop where
  slots : m'.slots = m.slots
  new : m.Uncarved a ∨ st.Future count a
  uncarved : ∀ b, m'.Uncarved b → (m.Uncarved b ∨ st.Future count b) ∧ b ≠ a
  future : ∀ b, st.Future (count + used.toNat) b → st.Future count b ∧ b ≠ a
  past : ∀ b, m'.Uncarved b → ¬ st.Future (count + used.toNat) b
  leftOver : ∀ b, m'.allocationStart ≤ b → b < m'.allocationEnd →
    ¬ (m'.leftOverStart ≤ b ∧ b < m'.leftOverEnd)

@[simp]
theorem slots_saveLeftOver (m : MemManager) : m.saveLeftOver.slots = m.slots := by
  rw [saveLeftOver]
  split <;> rfl

/-- What is left over has not been handed out before. -/
theorem uncarved_of_saveLeftOver {m : MemManager} {a : Nat}
    (h : m.saveLeftOver.leftOverStart ≤ a ∧ a < m.saveLeftOver.leftOverEnd) : m.Uncarved a := by
  rw [saveLeftOver] at h
  split at h
  . exact Or.inl h
  . exact Or.inr h

theorem carve_carves {m : MemManager} {st : Storage} {count : Nat} (h : m.Sound st count)
    {bsize : Nat} (hpos : 0 < bsize) (hmax : bsize ≤ 4096) :
    m.Carves (m.carve bsize (st.area count)).2.1 st count (m.carve bsize (st.area count)).1
      (m.carve bsize (st.area count)).2.2 := by
  have hleft := h.leftOver
  have hun := h.uncarved
  rw [carve]
  split
  next hfit =>
    -- from the rest of an earlier area
    refine ⟨rfl, Or.inl (Or.inr ⟨Nat.le_refl _, by omega⟩), ?_, ?_, ?_, ?_⟩
    . rintro b (hb | hb)
      . refine ⟨Or.inl (Or.inl hb), ?_⟩
        rintro rfl
        exact hleft _ hb.1 hb.2 ⟨Nat.le_refl _, by omega⟩
      . simp only at hb
        exact ⟨Or.inl (Or.inr ⟨by omega, hb.2⟩), by omega⟩
    . intro b hb
      refine ⟨hb, ?_⟩
      rintro rfl
      exact (hun m.leftOverStart (Or.inr ⟨Nat.le_refl _, by omega⟩)).2 hb
    . rintro b (hb | hb)
      . exact (hun b (Or.inl hb)).2
      . simp only at hb
        exact (hun b (Or.inr ⟨by omega, hb.2⟩)).2
    . intro b h1 h2 h3
      simp only at h1 h2 h3
      exact hleft b h1 h2 ⟨by omega, h3.2⟩
  next =>
    split
    next =>
      -- a new area
      have hnew : st.Future count (st.area count + AREA_HEADER_SIZE) :=
        ⟨count, Nat.le_refl _, by omega, by rw [AREA_SIZE, AREA_HEADER_SIZE]; omega⟩
      refine ⟨slots_saveLeftOver m, Or.inr hnew, ?_, ?_, ?_, ?_⟩
      . rintro b (hb | hb)
        . simp only at hb
          exact ⟨Or.inr ⟨count, Nat.le_refl _, by omega, hb.2⟩, by simp only; omega⟩
        . have hb' := uncarved_of_saveLeftOver hb
          refine ⟨Or.inl hb', ?_⟩
          rintro rfl
          exact (hun _ hb').2 hnew
      . intro b hb
        refine ⟨hb.of_succ, ?_⟩
        rintro rfl
        exact Storage.not_future_succ (Nat.le_add_right _ _)
          (by simp only [AREA_SIZE, AREA_HEADER_SIZE]; omega) hb
      . rintro b (hb | hb)
        . simp only at hb
          exact Storage.not_future_succ (by omega) hb.2
        . exact fun hf => (hun b (uncarved_of_saveLeftOver hb)).2 hf.of_succ
      . intro b h1 h2 h3
        simp only at h1 h2
        exact (hun b (uncarved_of_saveLeftOver h3)).2 ⟨count, Nat.le_refl _, by omega, h2⟩
    next =>
      refine ⟨rfl, Or.inl (Or.inl ⟨Nat.le_refl _, by omega⟩), ?_, ?_, ?_, ?_⟩
      . rintro b (hb | hb)
        . simp only at hb
          exact ⟨Or.inl (Or.inl ⟨by omega, hb.2⟩), by omega⟩
        . refine ⟨Or.inl (Or.inr hb), ?_⟩
          rintro rfl
          exact hleft _ (Nat.le_refl _) (by omega) hb
      . intro b hb
        refine ⟨hb, ?_⟩
        rintro rfl
        exact (hun m.allocationStart (Or.inl ⟨Nat.le_refl _, by omega⟩)).2 hb
      . rintro b (hb | hb)
        . simp only at hb
          exact (hun b (Or.inl ⟨by omega, hb.2⟩)).2
        . exact (hun b (Or.inr hb)).2
      . intro b h1 h2
        simp only at h1 h2
        exact hleft b (by omega) h2

/-- What `alloc` does: the page it hands out was free and is not available any more. -/
structure Allocates (m m' : MemManager) (st : Storage) (count count' startTxnId a : Nat) :
    Prop where
  sound : m'.Sound st count'
  free : m.Free st count startTxnId a
  avail' : ∀ b, m'.Avail st count' b → m.Avail st count b ∧ b ≠ a
  free' : ∀ b, m'.Free st count' startTxnId b → m.Free st count startTxnId b

theorem Carves.allocates {m m' : MemManager} {st : Storage} {count a : Nat} {used : Bool} (startTxnId : Nat)
    (hs : m.Sound st count) (h : m.Carves m' st count a used) :
    m.Allocates m' st count (count + used.toNat) startTxnId a := by
  have hqueued : ∀ b, m'.Queued b ↔ m.Queued b := fun b => by simp only [Queued, h.slots]
  have hrecyc : ∀ b, m'.Recyclable startTxnId b ↔ m.Recyclable startTxnId b := fun b => by
    simp only [Recyclable, h.slots]
  have hne : ∀ b, m.Queued b → b ≠ a := by
    rintro b hb rfl
    rcases h.new with hn | hn
    . exact (hs.queued _ hb).2.1 hn
    . exact (hs.queued _ hb).2.2 hn
  refine ⟨⟨?_, ?_, ?_, ?_, h.leftOver⟩, Or.inr h.new, ?_, ?_⟩
  . rw [h.slots]
    exact hs.nodup
  . rw [h.slots]
    exact hs.disjoint
  . intro b hb
    rw [hqueued] at hb
    refine ⟨(hs.queued b hb).1, ?_, fun hf => (hs.queued b hb).2.2 (h.future b hf).1⟩
    intro hu
    rcases (h.uncarved b hu).1 with hu | hu
    . exact (hs.queued b hb).2.1 hu
    . exact (hs.queued b hb).2.2 hu
  . intro b hb
    refine ⟨?_, h.past b hb⟩
    rcases (h.uncarved b hb).1 with hu | hu
    . exact (hs.uncarved b hu).1
    . exact hu.ne_zero
  . rintro b (hb | hb | hb)
    . rw [hqueued] at hb
      exact ⟨Or.inl hb, hne b hb⟩
    . exact ⟨Or.inr (h.uncarved b hb).1, (h.uncarved b hb).2⟩
    . exact ⟨Or.inr (Or.inr (h.future b hb).1), (h.future b hb).2⟩
  . rintro b (hb | hb | hb)
    . rw [hrecyc] at hb
      exact Or.inl hb
    . exact Or.inr (h.uncarved b hb).1
    . exact Or.inr (Or.inr (h.future b hb).1)

/-- The queue of a size class without its oldest page. -/
theorem pop_allocates {m : MemManager} {st : Storage} {count startTxnId sidx : Nat}
    {item : BlockItem} {items : List BlockItem} (hs : m.Sound st count)
    (hslot : m.slots sidx = item :: items) (hlt : item.txnId < startTxnId) :
    m.Allocates { m with slots := fun s => if s = sidx then items else m.slots s } st count count
      startTxnId item.link := by
  have hsub : ∀ s x, x ∈ (if s = sidx then items else m.slots s) → x ∈ m.slots s := by
    intro s x hx
    split at hx
    next heq => rw [heq, hslot]; exact List.mem_cons_of_mem _ hx
    next => exact hx
  have hmem : item ∈ m.slots sidx := by simp [hslot]
  have hq : m.Queued item.link := ⟨sidx, item, hmem, rfl⟩
  have hne : ∀ s, ∀ x ∈ (if s = sidx then items else m.slots s), x.link ≠ item.link := by
    intro s x hx
    by_cases heq : s = sidx
    . rw [if_pos heq] at hx
      have hnd := hs.nodup sidx
      rw [hslot, List.map_cons, List.nodup_cons] at hnd
      intro hlink
      exact hnd.1 (hlink ▸ List.mem_map_of_mem hx)
    . rw [if_neg heq] at hx
      exact hs.disjoint s sidx heq x hx item hmem
  refine ⟨⟨?_, ?_, ?_, hs.uncarved, hs.leftOver⟩, Or.inl ⟨sidx, item, hmem, rfl, hlt⟩, ?_, ?_⟩
  . intro s
    by_cases heq : s = sidx
    . have hnd := hs.nodup sidx
      rw [hslot, List.map_cons, List.nodup_cons] at hnd
      simpa only [heq, ↓reduceIte] using hnd.2
    . simpa only [heq, ↓reduceIte] using hs.nodup s
  . intro s s' hss x hx y hy
    exact hs.disjoint s s' hss x (hsub s x hx) y (hsub s' y hy)
  . rintro b ⟨s, x, hx, rfl⟩
    exact hs.queued _ ⟨s, x, hsub s x hx, rfl⟩
  . rintro b (⟨s, x, hx, rfl⟩ | hb | hb)
    . exact ⟨Or.inl ⟨s, x, hsub s x hx, rfl⟩, hne s x hx⟩
    . exact ⟨Or.inr (Or.inl hb), fun h => (hs.queued _ hq).2.1 (h ▸ hb)⟩
    . exact ⟨Or.inr (Or.inr hb), fun h => (hs.queued _ hq).2.2 (h ▸ hb)⟩
  . rintro b (⟨s, x, hx, rfl, hx'⟩ | hb)
    . exact Or.inl ⟨s, x, hsub s x hx, rfl, hx'⟩
    . exact Or.inr hb

theorem alloc_allocates {m : MemManager} {st : Storage} {count : Nat} (hs : m.Sound st count)
    {sidx : Nat} (hslot : sidx < PAGE_SIZES_COUNT) (startTxnId : Nat) :
    m.Allocates (m.alloc sidx startTxnId (st.area count)).2.1 st count
      (count + (m.alloc sidx startTxnId (st.area count)).2.2.toNat) startTxnId
      (m.alloc sidx startTxnId (st.area count)).1 := by
  have hcarve := (carve_carves hs (pageSize_pos hslot).1 (pageSize_pos hslot).2).allocates
    startTxnId hs
  rw [alloc]
  split
  next => exact hcarve
  next item items hitems =>
    split
    next hlt => exact pop_allocates hs hitems hlt
    next => exact hcarve

/-- `free` queues a page that is in use. -/
theorem free_sound {m : MemManager} {st : Storage} {count : Nat} (hs : m.Sound st count)
    {sidx : Nat} {item : BlockItem} (hne : item.link ≠ 0) (hused : ¬ m.Avail st count item.link) :
    (m.free sidx item).Sound st count := by
  have hnq : ∀ s, ∀ x ∈ m.slots s, x.link ≠ item.link :=
    fun s x hx heq => hused (Or.inl ⟨s, x, hx, heq⟩)
  have hmem : ∀ s x, x ∈ (m.free sidx item).slots s → x ∈ m.slots s ∨ s = sidx ∧ x = item := by
    intro s x hx
    rw [free] at hx
    simp only at hx
    split at hx
    next heq =>
      rcases List.mem_append.mp hx with hx | hx
      . exact Or.inl hx
      . exact Or.inr ⟨heq, List.mem_singleton.mp hx⟩
    next => exact Or.inl hx
  refine ⟨?_, ?_, ?_, hs.uncarved, hs.leftOver⟩
  . intro s
    rw [free]
    simp only
    split
    next =>
      rw [List.map_append, List.nodup_append]
      refine ⟨hs.nodup s, by simp, ?_⟩
      intro b hb b' hb'
      obtain ⟨x, hx, rfl⟩ := List.mem_map.mp hb
      rw [List.map_singleton, List.mem_singleton] at hb'
      rw [hb']
      exact hnq s x hx
    next => exact hs.nodup s
  . intro s s' hss x hx y hy
    rcases hmem s x hx with hx' | ⟨rfl, rfl⟩
    . rcases hmem s' y hy with hy' | ⟨rfl, rfl⟩
      . exact hs.disjoint s s' hss x hx' y hy'
      . exact hnq s x hx'
    . rcases hmem s' y hy with hy' | ⟨rfl, rfl⟩
      . exact (hnq s' y hy').symm
      . exact absurd rfl hss
  . rintro b ⟨s, x, hx, rfl⟩
    rcases hmem s x hx with hx | ⟨rfl, rfl⟩
    . exact hs.queued _ ⟨s, x, hx, rfl⟩
    . exact ⟨hne, fun h => hused (Or.inr (Or.inl h)), fun h => hused (Or.inr (Or.inr h))⟩

theorem avail_free {m : MemManager} {st : Storage} {count sidx : Nat} {item : BlockItem} {b : Nat}
    (h : (m.free sidx item).Avail st count b) : m.Avail st count b ∨ b = item.link := by
  rcases h with ⟨s, x, hx, rfl⟩ | h
  . rw [free] at hx
    simp only at hx
    split at hx
    next =>
      rcases List.mem_append.mp hx with hx | hx
      . exact Or.inl (Or.inl ⟨s, x, hx, rfl⟩)
      . exact Or.inr (by rw [List.mem_singleton.mp hx])
    next => exact Or.inl (Or.inl ⟨s, x, hx, rfl⟩)
  . exact Or.inl (Or.inr h)

/-- A page that is freed now is not handed out in this transaction. -/
theorem free_free {m : MemManager} {st : Storage} {count startTxnId sidx : Nat} {item : BlockItem}
    (hle : startTxnId ≤ item.txnId) {b : Nat} (h : (m.free sidx item).Free st count startTxnId b) :
    m.Free st count startTxnId b := by
  rcases h with ⟨s, x, hx, rfl, hlt⟩ | h
  . rw [free] at hx
    simp only at hx
    split at hx
    next =>
      rcases List.mem_append.mp hx with hx | hx
      . exact Or.inl ⟨s, x, hx, rfl, hlt⟩
      . rw [List.mem_singleton.mp hx] at hlt
        omega
    next => exact Or.inl ⟨s, x, hx, rfl, hlt⟩
  . exact Or.inr h

end MemManager
end Leaves
