import Leaves.Storage.DirectoryMap
import Mathlib.Data.List.TakeWhile

/-!
Runs of calls on the directory of a storage of either kind, and the finite map that they make.
-/

namespace Leaves
namespace Directory

variable {cap : Capacity} {d d' : Directory} {m : DirectoryMap} {pages : List Nat}
  {kind : StorageKind}

/-- Where the overflow pages are: one after the other in the first area of a file in memory, each at
the beginning of an area of its own otherwise. -/
def Placed (kind : StorageKind) (d : Directory) (pages : List Nat) : Prop :=
  match kind with
  | .mmap => pages = (List.range pages.length).map (fun i => Mmap.PAGE_BYTES * (i + 1)) ∧
      pages.length < Mmap.maxPages
  | .cache => ∀ p ∈ pages, ∃ a, p = a + AREA_HEADER_SIZE ∧ AREA_SIZE ∣ a ∧
      a + AREA_SIZE ≤ d.fileSize

/-- The directory of a storage of this kind stores the map. -/
structure Stores (kind : StorageKind) (cap : Capacity) (d : Directory) (m : DirectoryMap) :
    Prop where
  rel : Rel cap d m
  placed : Placed kind d m.pages

theorem stores_init (kind : StorageKind) (cap : Capacity) (fileSize : Nat) :
    Stores kind cap (init fileSize) DirectoryMap.init where
  rel :=
    { wf := wf_init cap fileSize
      live := by
        unfold live ptrs firstPtrs
        exact List.Perm.refl _
      names := List.nodup_nil
      offsets := List.nodup_nil
      types := fun _ hv => absurd hv List.not_mem_nil
      opened := fun _ => rfl }
  placed := by
    cases kind with
    | mmap => exact ⟨rfl, by decide⟩
    | cache => exact fun _ hp => absurd hp List.not_mem_nil

theorem Placed.mono (h : Placed kind d pages) (hsize : d.fileSize ≤ d'.fileSize) :
    Placed kind d' pages := by
  cases kind with
  | mmap => exact h
  | cache =>
    intro p hp
    obtain ⟨a, hpa, hdvd, hle⟩ := h p hp
    exact ⟨a, hpa, hdvd, Nat.le_trans hle hsize⟩

/-- The limit on the overflow pages that are visited. -/
def maxPages (kind : StorageKind) (d : Directory) : Nat :=
  match kind with
  | .mmap => Mmap.maxPages
  | .cache => Cache.maxPages d

/-- The pages have areas of their own, there are not more than areas in the file. -/
theorem Placed.length_le (h : Placed kind d pages) (hnodup : pages.Nodup) :
    pages.length ≤ maxPages kind d := by
  cases kind with
  | mmap => exact Nat.le_of_lt h.2
  | cache =>
    have hinj : (pages.map fun p => (p - AREA_HEADER_SIZE) / AREA_SIZE).Nodup := by
      apply hnodup.map_on
      intro p hp q hq heq
      obtain ⟨a, rfl, ⟨i, rfl⟩, -⟩ := h p hp
      obtain ⟨b, rfl, ⟨j, rfl⟩, -⟩ := h q hq
      rw [Nat.add_sub_cancel, Nat.add_sub_cancel, Nat.mul_div_cancel_left i (by decide),
        Nat.mul_div_cancel_left j (by decide)] at heq
      rw [heq]
    have hsub : ∀ k ∈ pages.map fun p => (p - AREA_HEADER_SIZE) / AREA_SIZE,
        k ∈ List.range (d.fileSize / AREA_SIZE) := by
      intro k hk
      rw [List.mem_map] at hk
      obtain ⟨p, hp, rfl⟩ := hk
      obtain ⟨a, rfl, ⟨i, rfl⟩, hle⟩ := h p hp
      have hpos : 0 < AREA_SIZE := by decide
      rw [Nat.add_sub_cancel, Nat.mul_div_cancel_left i hpos, List.mem_range]
      rw [← Nat.mul_succ] at hle
      exact (Nat.le_div_iff_mul_le hpos).2 (by rw [Nat.mul_comm]; exact hle)
    have hle := (List.subperm_of_subset hinj hsub).length_le
    rw [List.length_map, List.length_range] at hle
    exact Nat.le_succ_of_le hle

/-! `open` of a storage of each kind. -/

/-- An overflow page of a file in memory. -/
theorem Stores.allocOverflowSlot (h : Stores .mmap cap d m) (hfirst : d.dbEntryCount = cap.first)
    (hholes : ∀ ptr ∈ firstPtrs cap d, (d.entry ptr).offset ≠ 0) :
    (∃ d' ptr, Mmap.allocOverflowSlot cap d = some (some (d', ptr)) ∧
      Reserved cap d m.pages d' m.pages ptr ∧ d'.fileSize = d.fileSize) ∨
    (¬m.dbs.length < cap.first + m.pages.length * cap.page ∧
      (if m.pages.length + 1 < Mmap.maxPages then
        ∃ d' ptr, Mmap.allocOverflowSlot cap d = some (some (d', ptr)) ∧
          Reserved cap d m.pages d' (m.pages ++ [Mmap.PAGE_BYTES * (m.pages.length + 1)]) ptr
      else
        Mmap.allocOverflowSlot cap d = some none)) := by
  have hwf := h.rel.wf
  obtain ⟨hplaced, hlen⟩ := h.placed
  have hused : ∀ p ∈ m.pages, (d.pages p).count = min (d.pages p).count cap.page :=
    fun p hp => (Nat.min_eq_left (hwf.page_le p hp)).symm
  have hin : ∀ p ∈ m.pages, ∃ i, i < m.pages.length ∧ p = Mmap.PAGE_BYTES * (i + 1) := by
    intro p hp
    rw [hplaced, List.mem_map] at hp
    obtain ⟨i, hi, rfl⟩ := hp
    exact ⟨i, List.mem_range.1 hi, rfl⟩
  unfold Mmap.allocOverflowSlot
  rw [hwf.head]
  rcases findPlace_eq DirectoryPage.count hused hwf.linked hwf.nonzero hwf.page_le
    (Nat.le_of_lt hlen) 0 with ⟨ptr, heq, hmem, hfree⟩ | ⟨p, heq, hp, hlt⟩ | ⟨heq, hall⟩
  . rw [heq]
    left
    exact ⟨d, ptr, rfl, reserved_hole hwf (List.mem_append_right _ hmem) hfree, rfl⟩
  . rw [heq]
    left
    exact ⟨_, _, rfl, reserved_page hwf hp hlt, rfl⟩
  . rw [heq]
    right
    have hlast : m.pages.getLastD 0 = Mmap.PAGE_BYTES * m.pages.length := by
      generalize m.pages.length = n at hplaced
      rw [hplaced]
      cases n with
      | zero => rfl
      | succ n => rw [List.range_succ, List.map_append, List.map_singleton, List.getLastD_concat]
    have hnew : (if m.pages.getLastD 0 ≠ 0 then m.pages.getLastD 0 + Mmap.PAGE_BYTES
        else Mmap.PAGE_BYTES) = Mmap.PAGE_BYTES * (m.pages.length + 1) := by
      rw [hlast, Nat.mul_succ]
      split
      . rfl
      . omega
    refine ⟨?_, ?_⟩
    . apply h.rel.not_lt_of_full hfirst (fun p hp => (hall p hp).1)
      intro ptr hptr
      unfold ptrs at hptr
      rw [List.mem_append, List.mem_flatMap] at hptr
      rcases hptr with hptr | ⟨p, hp, hptr⟩
      . exact hholes ptr hptr
      . exact (hall p hp).2 ptr hptr
    . dsimp only
      rw [hnew]
      have hmax : AREA_SIZE = Mmap.PAGE_BYTES * Mmap.maxPages := by decide
      have hpage : 0 < Mmap.PAGE_BYTES := by decide
      by_cases hroom : m.pages.length + 1 < Mmap.maxPages
      . have hle : Mmap.PAGE_BYTES * (m.pages.length + 2) ≤ Mmap.PAGE_BYTES * Mmap.maxPages :=
          Nat.mul_le_mul_left _ hroom
        rw [if_pos hroom, if_neg (by rw [← Nat.mul_succ, hmax]; exact Nat.not_lt.2 hle)]
        refine ⟨_, _, rfl, ?_⟩
        apply reserved_append hwf hfirst
        . intro hmem
          obtain ⟨i, hi, heq⟩ := hin _ hmem
          have hcancel := Nat.eq_of_mul_eq_mul_left hpage heq
          omega
        . exact Nat.mul_ne_zero hpage.ne' (Nat.succ_ne_zero _)
      . have hlt : Mmap.PAGE_BYTES * Mmap.maxPages < Mmap.PAGE_BYTES * (m.pages.length + 2) :=
          Nat.mul_lt_mul_of_pos_left (by omega) hpage
        rw [if_neg hroom, if_pos (by rw [← Nat.mul_succ, hmax]; exact hlt)]

/-- What a call leaves and returns is as the map says. -/
def Follows (kind : StorageKind) (cap : Capacity) {α : Type} (answer : Answer α)
    (spec : DirectoryMap × Except Refusal α) : Prop :=
  Stores kind cap answer.1 spec.1 ∧ answer.2 = spec.2

theorem Stores.openExisting (h : Stores kind cap d m) {name : Key} {v : Db}
    (hfind : m.find name = some v) (type : Nat) :
    Follows kind cap (d.openExisting type name v.offset)
      (if v.typeId ≠ type then (m, .error .typeMismatch)
        else (m.markOpen name, .ok v.offset)) := by
  obtain ⟨m', hrel, hpages, heq⟩ := h.rel.openExisting hfind type
  have hsize : (d.openExisting type name v.offset).1.fileSize = d.fileSize := by
    unfold Directory.openExisting
    split <;> rfl
  rw [← heq]
  refine ⟨⟨hrel, ?_⟩, rfl⟩
  rw [hpages]
  exact h.placed.mono (Nat.le_of_eq hsize.symm)

theorem Stores.openCached (h : Stores kind cap d m) {name : Key} {slot : DBSlot}
    (hslot : d.opened name = some slot) (type : Nat) :
    ∃ v, m.find name = some v ∧
      Follows kind cap (d, if slot.typeId ≠ type then .error .typeMismatch else .ok slot.offset)
        (if v.typeId ≠ type then (m, .error .typeMismatch)
          else (m.markOpen name, .ok v.offset)) := by
  obtain ⟨v, hfind, hopen, rfl⟩ := h.rel.of_opened hslot
  refine ⟨v, hfind, ?_⟩
  dsimp only
  split
  . exact ⟨h, rfl⟩
  . rw [markOpen_of_open h.rel.names hfind hopen]
    exact ⟨h, rfl⟩

theorem fileSize_setEntry (d : Directory) (ptr : EntryPtr) (e : DBEntry) :
    (d.setEntry ptr e).fileSize = d.fileSize := by
  cases ptr <;> rfl

theorem fileSize_create (d : Directory) (ptr : EntryPtr) (type : Nat) (name : Key)
    (area : Option Nat) : d.fileSize ≤ (d.create ptr type name area).1.fileSize := by
  cases area with
  | none =>
    unfold create
    dsimp only
    rw [fileSize_setEntry]
  | some a =>
    unfold create newDB
    dsimp only
    rw [fileSize_setEntry]
    exact Nat.le_max_left ..

/-- What is promised of the area for a new database: no database has it. -/
def Fresh (m : DirectoryMap) (area : Option Nat) : Prop :=
  ∀ a, area = some a → a + AREA_HEADER_SIZE ∉ m.dbs.map Db.offset

theorem Stores.create (h : Stores kind cap d m) {pages' : List Nat} {ptr : EntryPtr}
    (hres : Reserved cap d m.pages d' pages' ptr) (hplaced : Placed kind d' pages')
    {name : Key} (hnone : m.find name = none) (hname : cstring name = name) (type : Nat)
    {area : Option Nat} (hfresh : Fresh m area) :
    Follows kind cap (d'.create ptr type name area) (m.create pages' type name area) := by
  obtain ⟨hrel, heq⟩ := h.rel.create hres hnone hname type hfresh
  refine ⟨⟨hrel, ?_⟩, heq⟩
  have hpages : (m.create pages' type name area).1.pages = pages' := by
    cases area <;> rfl
  rw [hpages]
  exact hplaced.mono (fileSize_create d' ptr type name area)

theorem cstring_eq {name : Key} (hzero : 0 ∉ name) (hlen : name.length < 56) :
    cstring name = name := by
  unfold cstring
  rw [List.takeWhile_eq_self_iff.2, List.take_of_length_le (by omega)]
  intro b hb
  apply decide_eq_true
  rintro rfl
  exact hzero hb

theorem hole_iff {ptr : EntryPtr} : hole d ptr = true ↔ (d.entry ptr).offset = 0 :=
  decide_eq_true_iff

theorem Stores.openMmap (h : Stores .mmap cap d m) {name : Key} (hzero : 0 ∉ name) (type : Nat)
    {area : Option Nat} (pageArea : Option Nat) (hfresh : Fresh m area) :
    Follows .mmap cap (Mmap.openDB cap d type name area)
      (m.openDB cap .mmap type name area pageArea) := by
  unfold Mmap.openDB DirectoryMap.openDB
  by_cases hlong : 56 ≤ name.length
  . rw [if_pos hlong, if_pos hlong]
    exact ⟨h, rfl⟩
  . rw [if_neg hlong, if_neg hlong]
    have hname := cstring_eq hzero (Nat.not_le.1 hlong)
    have hwf := h.rel.wf
    cases hslot : d.opened name with
    | some slot =>
      obtain ⟨v, hfind, hfollows⟩ := h.openCached hslot type
      rw [hfind]
      exact hfollows
    | none =>
      have hscan := visit_scan d name (ptrs cap d m.pages) none
      have hpages : m.pages.length ≤ Mmap.maxPages := h.placed.length_le hwf.nodup
      dsimp only
      rw [forEachEntry_eq cap d _ hwf hpages]
      generalize (visit (Mmap.scan d name) (ptrs cap d m.pages) (none, none)).1 = st at hscan
      obtain ⟨free, found⟩ := st
      obtain ⟨hfound, hfree⟩ := hscan
      dsimp only at hfound hfree
      cases hmatch : (ptrs cap d m.pages).find? (Cache.match_ d name) with
      | some ptr =>
        rw [hmatch] at hfound
        rw [hfound]
        obtain ⟨-, v, hfind, hentry⟩ := h.rel.of_find_some hmatch
        dsimp only
        rw [hfind, hentry]
        exact h.openExisting hfind type
      | none =>
        rw [hmatch] at hfound
        have hnone := h.rel.of_find_none hmatch
        have hhole := hfree hmatch
        rw [Option.none_or] at hhole
        rw [hfound, hnone]
        cases hfind : (ptrs cap d m.pages).find? (hole d) with
        | some ptr =>
          rw [hhole, hfind]
          have hres := reserved_hole hwf (List.mem_of_find?_eq_some hfind)
            (hole_iff.1 (List.find?_some hfind))
          dsimp only
          rw [if_pos (h.rel.lt_of_reserved hres)]
          exact h.create hres h.placed hnone hname type hfresh
        | none =>
          rw [hhole, hfind]
          rw [List.find?_eq_none] at hfind
          have hholes : ∀ ptr ∈ ptrs cap d m.pages, (d.entry ptr).offset ≠ 0 :=
            fun ptr hptr hoff => hfind ptr hptr (hole_iff.2 hoff)
          dsimp only
          rw [Nat.min_eq_left hwf.count_le]
          by_cases hfirst : d.dbEntryCount < cap.first
          . have hres := reserved_first hwf hfirst
            rw [if_pos hfirst, if_pos (h.rel.lt_of_reserved hres)]
            exact h.create hres h.placed hnone hname type hfresh
          . rw [if_neg hfirst]
            have hcount : d.dbEntryCount = cap.first :=
              Nat.le_antisymm hwf.count_le (Nat.not_lt.1 hfirst)
            rcases h.allocOverflowSlot hcount
              (fun ptr hptr => hholes ptr (List.mem_append_left _ hptr)) with
              ⟨d', ptr, halloc, hres, hsize⟩ | ⟨hfull, halloc⟩
            . rw [halloc, if_pos (h.rel.lt_of_reserved hres)]
              exact h.create hres (h.placed.mono (Nat.le_of_eq hsize.symm)) hnone hname type hfresh
            . rw [if_neg hfull]
              by_cases hroom : m.pages.length + 1 < Mmap.maxPages
              . rw [if_pos hroom] at halloc
                obtain ⟨d', ptr, halloc, hres⟩ := halloc
                rw [halloc, if_pos hroom]
                refine h.create hres ⟨?_, ?_⟩ hnone hname type hfresh
                . rw [List.length_append, List.length_singleton, List.range_succ, List.map_append,
                    List.map_singleton, ← h.placed.1]
                . rw [List.length_append, List.length_singleton]
                  exact hroom
              . rw [if_neg hroom] at halloc
                rw [halloc, if_neg hroom]
                exact ⟨h, rfl⟩

/-- The file may grow at any time. -/
theorem Stores.grow (h : Stores kind cap d m) (n : Nat) :
    Stores kind cap { d with fileSize := max d.fileSize n } m where
  rel :=
    { wf := h.rel.wf.congr rfl rfl rfl rfl
      live := h.rel.live
      names := h.rel.names
      offsets := h.rel.offsets
      types := h.rel.types
      opened := h.rel.opened }
  placed := h.placed.mono (Nat.le_max_left ..)

/-- What is promised of the area for an overflow page: it is an area, and no page has it. -/
def FreshPage (m : DirectoryMap) (pageArea : Option Nat) : Prop :=
  ∀ a, pageArea = some a → AREA_SIZE ∣ a ∧ a + AREA_HEADER_SIZE ∉ m.pages

theorem fileSize_appendPage (d : Directory) (last page : Nat) :
    (d.appendPage last page).fileSize = d.fileSize := by
  unfold appendPage
  dsimp only
  split <;> rfl

theorem Stores.createInOverflow (h : Stores .cache cap d m) (hfirst : d.dbEntryCount = cap.first)
    (hholes : ∀ ptr ∈ firstPtrs cap d, (d.entry ptr).offset ≠ 0) {name : Key}
    (hnone : m.find name = none) (hname : cstring name = name) (type : Nat)
    {area pageArea : Option Nat} (hfresh : Fresh m area) (hpage : FreshPage m pageArea) :
    Follows .cache cap (Cache.createInOverflow cap d type name area pageArea)
      (if m.dbs.length < cap.first + m.pages.length * cap.page then
        m.create m.pages type name area
      else
        m.createInPage type name area pageArea) := by
  have hwf := h.rel.wf
  have hlen : m.pages.length ≤ Cache.maxPages d := h.placed.length_le hwf.nodup
  have hplace := findPlace_eq (fun p => min p.count cap.page) (fun _ _ => rfl) hwf.linked
    hwf.nonzero hwf.page_le hlen 0
  rw [← hwf.head] at hplace
  unfold Cache.createInOverflow
  rcases hplace with ⟨ptr, heq, hmem, hfree⟩ | ⟨p, heq, hp, hlt⟩ | ⟨heq, hall⟩
  . have hres := reserved_hole hwf (List.mem_append_right _ hmem) hfree
    rw [heq, if_pos (h.rel.lt_of_reserved hres)]
    cases area with
    | none => exact ⟨h, rfl⟩
    | some a => exact h.create hres h.placed hnone hname type hfresh
  . have hres := reserved_page hwf hp hlt
    rw [heq, if_pos (h.rel.lt_of_reserved hres)]
    cases area with
    | none => exact ⟨h, rfl⟩
    | some a => exact h.create hres (h.placed.mono (Nat.le_refl _)) hnone hname type hfresh
  . have hfull := h.rel.not_lt_of_full hfirst (fun p hp => (hall p hp).1) (by
      intro ptr hptr
      unfold ptrs at hptr
      rw [List.mem_append, List.mem_flatMap] at hptr
      rcases hptr with hptr | ⟨p, hp, hptr⟩
      . exact hholes ptr hptr
      . exact (hall p hp).2 ptr hptr)
    rw [heq, if_neg hfull]
    cases pageArea with
    | none => exact ⟨h, rfl⟩
    | some pa =>
      obtain ⟨hdvd, hnew⟩ := hpage pa rfl
      have hgrown := h.grow (pa + AREA_SIZE)
      cases area with
      | none => exact ⟨hgrown, rfl⟩
      | some a =>
        have hne : pa + AREA_HEADER_SIZE ≠ 0 := by
          rw [AREA_HEADER_SIZE]
          omega
        have hres := reserved_append hgrown.rel.wf hfirst hnew hne
        apply hgrown.create hres _ hnone hname type hfresh
        intro p hp
        rw [fileSize_appendPage]
        rw [List.mem_append, List.mem_singleton] at hp
        rcases hp with hp | rfl
        . exact hgrown.placed p hp
        . exact ⟨pa, rfl, hdvd, Nat.le_max_right ..⟩

theorem Stores.openCache (h : Stores .cache cap d m) {name : Key} (hzero : 0 ∉ name) (type : Nat)
    {area pageArea : Option Nat} (hfresh : Fresh m area) (hpage : FreshPage m pageArea) :
    Follows .cache cap (Cache.openDB cap d type name area pageArea)
      (m.openDB cap .cache type name area pageArea) := by
  unfold Cache.openDB DirectoryMap.openDB
  by_cases hlong : 56 ≤ name.length
  . rw [if_pos hlong, if_pos hlong]
    exact ⟨h, rfl⟩
  . rw [if_neg hlong, if_neg hlong]
    have hname := cstring_eq hzero (Nat.not_le.1 hlong)
    have hwf := h.rel.wf
    cases hslot : d.opened name with
    | some slot =>
      obtain ⟨v, hfind, hfollows⟩ := h.openCached hslot type
      rw [hfind]
      exact hfollows
    | none =>
      have hpages : m.pages.length ≤ Cache.maxPages d := h.placed.length_le hwf.nodup
      have hexisting : ∀ ptr, (ptrs cap d m.pages).find? (Cache.match_ d name) = some ptr →
          ∃ v, m.find name = some v ∧ Follows .cache cap
            (d.openExisting type name (d.entry ptr).offset)
            (if v.typeId ≠ type then (m, .error .typeMismatch)
              else (m.markOpen name, .ok v.offset)) := by
        intro ptr hmatch
        obtain ⟨-, v, hfind, hentry⟩ := h.rel.of_find_some hmatch
        refine ⟨v, hfind, ?_⟩
        rw [hentry]
        exact h.openExisting hfind type
      have hoverflow : Cache.findInOverflowPages cap d name _ _ = _ :=
        findInOverflowPages_eq d name hwf.linked hwf.nonzero hpages
      rw [← hwf.head] at hoverflow
      unfold ptrs at hexisting
      dsimp only
      cases hmatch : (firstPtrs cap d).find? (Cache.match_ d name) with
      | some ptr =>
        obtain ⟨v, hfind, hfollows⟩ := hexisting ptr (by
          rw [List.find?_append, hmatch]
          rfl)
        rw [hfind]
        exact hfollows
      | none =>
        dsimp only
        rw [hoverflow]
        cases hover : (m.pages.flatMap (pagePtrs cap d)).find? (Cache.match_ d name) with
        | some ptr =>
          obtain ⟨v, hfind, hfollows⟩ := hexisting ptr (by
            rw [List.find?_append, hmatch, hover]
            rfl)
          rw [hfind]
          exact hfollows
        | none =>
          have hnone : m.find name = none := by
            apply h.rel.of_find_none
            unfold ptrs
            rw [List.find?_append, hmatch, hover]
            rfl
          rw [hnone]
          dsimp only
          cases hfree : (firstPtrs cap d).find? fun ptr => (d.entry ptr).offset = 0 with
          | some ptr =>
            have hoff := List.find?_some hfree
            have hres := reserved_hole hwf
              (List.mem_append_left _ (List.mem_of_find?_eq_some hfree)) (of_decide_eq_true hoff)
            dsimp only
            rw [if_pos (h.rel.lt_of_reserved hres)]
            exact h.create hres h.placed hnone hname type hfresh
          | none =>
            rw [List.find?_eq_none] at hfree
            dsimp only
            rw [Nat.min_eq_left hwf.count_le]
            by_cases hfirst : d.dbEntryCount < cap.first
            . have hres := reserved_first hwf hfirst
              rw [if_pos hfirst, if_pos (h.rel.lt_of_reserved hres)]
              exact h.create hres h.placed hnone hname type hfresh
            . rw [if_neg hfirst]
              apply h.createInOverflow _ _ hnone hname type hfresh hpage
              . exact Nat.le_antisymm hwf.count_le (Nat.not_lt.1 hfirst)
              . exact fun ptr hptr hoff => hfree ptr hptr (decide_eq_true hoff)

/-! `remove` of a storage of each kind. -/

theorem Stores.freeEntry (h : Stores kind cap d m) {ptr : EntryPtr}
    (hptr : ptr ∈ ptrs cap d m.pages) {name : Key} {v : Db} (hfind : m.find name = some v)
    (hentry : d.entry ptr = ⟨v.name, v.offset⟩) :
    Stores kind cap (d.freeEntry ptr name) (m.erase name) where
  rel := h.rel.freeEntry hptr hfind hentry
  placed := by
    apply h.placed.mono
    unfold Directory.freeEntry
    dsimp only
    rw [fileSize_setEntry]

/-- What is done with the entry that `remove` finds. -/
def removeFound (d : Directory) (type : Nat) (name : Key) (found : Option EntryPtr) :
    Answer Unit :=
  match found with
  | none => (d, .error .notExisting)
  | some ptr => Cache.removeAt d type name ptr

theorem removeFound_eq (hwf : WF cap d pages) (hlen : pages.length ≤ Cache.maxPages d)
    (type : Nat) (name : Key) :
    Cache.removeFound cap d type name =
      removeFound d type name ((ptrs cap d pages).find? (Cache.match_ d name)) := by
  unfold Cache.removeFound ptrs
  rw [List.find?_append]
  cases hmatch : (firstPtrs cap d).find? (Cache.match_ d name) with
  | some ptr => rfl
  | none =>
    dsimp only
    rw [hwf.head, findInOverflowPages_eq d name hwf.linked hwf.nonzero hlen, Option.none_or]
    cases (pages.flatMap (pagePtrs cap d)).find? (Cache.match_ d name) <;> rfl

/-- `remove` of a storage of this kind. -/
def removeDB (kind : StorageKind) (cap : Capacity) (d : Directory) (type : Nat) (name : Key)
    (active : Bool) : Answer Unit :=
  match kind with
  | .mmap => Mmap.removeDB cap d type name active
  | .cache => Cache.removeDB cap d type name active

/-- `remove` looks for the entry, unless the database is open and may not be removed. -/
theorem Stores.removeDB_eq (h : Stores kind cap d m) (type : Nat) (name : Key) (active : Bool) :
    removeDB kind cap d type name active =
      match d.opened name with
      | some slot =>
        if slot.typeId ≠ type then
          (d, .error .typeMismatch)
        else if active then
          (d, .error .transactionActive)
        else
          removeFound d type name ((ptrs cap d m.pages).find? (Cache.match_ d name))
      | none => removeFound d type name ((ptrs cap d m.pages).find? (Cache.match_ d name)) := by
  have hwf := h.rel.wf
  have hlen : m.pages.length ≤ maxPages kind d := h.placed.length_le hwf.nodup
  cases kind with
  | cache =>
    have hfound := removeFound_eq hwf hlen type name
    unfold removeDB Cache.removeDB
    cases d.opened name with
    | some slot =>
      dsimp only
      rw [hfound]
    | none =>
      dsimp only
      rw [hfound]
  | mmap =>
    have hseek := visit_seek d name (ptrs cap d m.pages)
    have heach := forEachEntry_eq cap d (Mmap.seek d name) hwf hlen none
    rw [hseek] at heach
    unfold removeDB Mmap.removeDB
    dsimp only [maxPages] at heach ⊢
    rw [heach]
    cases hslot : d.opened name with
    | some slot =>
      dsimp only
      split
      . rfl
      . next htype =>
        split
        . rfl
        . cases (ptrs cap d m.pages).find? (Cache.match_ d name) with
          | none => rfl
          | some ptr =>
            unfold removeFound Cache.removeAt
            rw [hslot]
            dsimp only
            rw [if_neg htype]
    | none =>
      cases (ptrs cap d m.pages).find? (Cache.match_ d name) with
      | none => rfl
      | some ptr =>
        unfold removeFound Cache.removeAt
        rw [hslot]

theorem Stores.removeDB (h : Stores kind cap d m) (type : Nat) (name : Key) (active : Bool) :
    Follows kind cap (Directory.removeDB kind cap d type name active)
      (m.removeDB type name active) := by
  rw [h.removeDB_eq]
  unfold DirectoryMap.removeDB
  cases hslot : d.opened name with
  | some slot =>
    obtain ⟨v, hfind, hisOpen, rfl⟩ := h.rel.of_opened hslot
    rw [hfind]
    dsimp only
    by_cases htype : v.typeId ≠ type
    . rw [if_pos htype, if_pos htype]
      exact ⟨h, rfl⟩
    . rw [if_neg htype, if_neg htype]
      by_cases hactive : active = true
      . rw [if_pos hactive, if_pos ⟨hisOpen, hactive⟩]
        exact ⟨h, rfl⟩
      . rw [if_neg hactive, if_neg (fun hand => hactive hand.2)]
        cases hmatch : (ptrs cap d m.pages).find? (Cache.match_ d name) with
        | none =>
          rw [h.rel.of_find_none hmatch] at hfind
          cases hfind
        | some ptr =>
          obtain ⟨hptr, w, hfind', hentry⟩ := h.rel.of_find_some hmatch
          unfold removeFound Cache.removeAt
          rw [hslot]
          dsimp only
          rw [if_neg htype]
          exact ⟨h.freeEntry hptr hfind' hentry, rfl⟩
  | none =>
    dsimp only
    cases hmatch : (ptrs cap d m.pages).find? (Cache.match_ d name) with
    | none =>
      rw [h.rel.of_find_none hmatch]
      exact ⟨h, rfl⟩
    | some ptr =>
      obtain ⟨hptr, v, hfind, hentry⟩ := h.rel.of_find_some hmatch
      have hnot := h.rel.not_open hslot hfind
      have hv := ((find_eq_some_iff h.rel.names).1 hfind).1
      unfold removeFound Cache.removeAt
      rw [hfind, hslot]
      dsimp only
      rw [hentry]
      dsimp only
      rw [h.rel.types v hv]
      by_cases htype : v.typeId ≠ type
      . rw [if_pos htype, if_pos htype]
        exact ⟨h, rfl⟩
      . rw [if_neg htype, if_neg htype, if_neg]
        . exact ⟨h.freeEntry hptr hfind hentry, rfl⟩
        . rw [hnot]
          exact fun hand => Bool.false_ne_true hand.1

/-- A call that frees the entry of a name, and no other one. -/
structure Frees (d : Directory) (name : Key) (d' : Directory) (ptr : EntryPtr) : Prop where
  named : (d.entry ptr).name = name
  used : (d.entry ptr).offset ≠ 0
  free : (d'.entry ptr).offset = 0
  others : ∀ q, q ≠ ptr → d'.entry q = d.entry q
  closed : d'.opened name = none
  handles : ∀ n, n ≠ name → d'.opened n = d.opened n

theorem frees_freeEntry (d : Directory) {name : Key} {ptr : EntryPtr}
    (hname : (d.entry ptr).name = name) (hused : (d.entry ptr).offset ≠ 0) :
    Frees d name (d.freeEntry ptr name) ptr := by
  have hopened : (d.setEntry ptr { d.entry ptr with offset := 0 }).opened = d.opened := by
    cases ptr <;> rfl
  have hentry : ∀ q, (d.freeEntry ptr name).entry q =
      if q = ptr then { d.entry ptr with offset := 0 } else d.entry q := by
    intro q
    exact entry_setEntry d ptr q _
  constructor
  . exact hname
  . exact hused
  . rw [hentry, if_pos rfl]
  . intro q hq
    rw [hentry, if_neg hq]
  . exact Function.update_self ..
  . intro n hn
    unfold freeEntry
    dsimp only
    rw [Function.update_of_ne hn, hopened]

/-- An entry is freed, or the directory is as before. -/
def FreesOrKeeps (d : Directory) (name : Key) (answer : Answer Unit) : Prop :=
  match answer.2 with
  | .ok _ => ∃ ptr, Frees d name answer.1 ptr
  | .error _ => answer.1 = d

theorem removeFound_frees (d : Directory) (type : Nat) (name : Key) (l : List EntryPtr) :
    FreesOrKeeps d name (removeFound d type name (l.find? (Cache.match_ d name))) := by
  cases hfind : l.find? (Cache.match_ d name) with
  | none => rfl
  | some ptr =>
    have hmatch := List.find?_some hfind
    obtain ⟨hused, hname⟩ := of_decide_eq_true hmatch
    have hfrees := frees_freeEntry d hname hused
    unfold removeFound Cache.removeAt
    dsimp only
    split
    . split
      . rfl
      . exact ⟨ptr, hfrees⟩
    . split
      . rfl
      . exact ⟨ptr, hfrees⟩

theorem Stores.removeDB_frees (h : Stores kind cap d m) (type : Nat) (name : Key) (active : Bool) :
    FreesOrKeeps d name (Directory.removeDB kind cap d type name active) := by
  have hfound := removeFound_frees d type name (ptrs cap d m.pages)
  rw [h.removeDB_eq]
  split
  . split
    . rfl
    . split
      . rfl
      . exact hfound
  . exact hfound

end Directory

/-! Runs of calls. -/

/-- A call with the type of the database class. `area` and `pageArea` are the areas that the storage
gives for a new database and a new overflow page, `active` is what `is_active()` says. The file can
grow and be closed and opened again in between. -/
inductive DirectoryCall where
  | openDB (type : Nat) (name : Key) (area pageArea : Option Nat)
  | removeDB (type : Nat) (name : Key) (active : Bool)
  | reopen
  | grow (fileSize : Nat)
  deriving DecidableEq, Repr

namespace Directory

variable (kind : StorageKind) (cap : Capacity)

/-- `open` of a storage of this kind. -/
def openDB (d : Directory) (type : Nat) (name : Key) (area pageArea : Option Nat) : Answer Nat :=
  match kind with
  | .mmap => Mmap.openDB cap d type name area
  | .cache => Cache.openDB cap d type name area pageArea

def step (d : Directory) : DirectoryCall → Answer (Option Nat)
  | .openDB type name area pageArea =>
    let (d, answer) := openDB kind cap d type name area pageArea
    (d, answer.map some)
  | .removeDB type name active =>
    let (d, answer) := removeDB kind cap d type name active
    (d, answer.map fun _ => none)
  | .reopen => (d.reopen, .ok none)
  | .grow n => ({ d with fileSize := max d.fileSize n }, .ok none)

def run (d : Directory) : List DirectoryCall → Directory × List (Except Refusal (Option Nat))
  | [] => (d, [])
  | call :: calls =>
    let (d, answer) := step kind cap d call
    let (d, answers) := run d calls
    (d, answer :: answers)

end Directory

namespace DirectoryMap

variable (kind : StorageKind) (cap : Capacity)

def step (m : DirectoryMap) : DirectoryCall → DirectoryMap × Except Refusal (Option Nat)
  | .openDB type name area pageArea =>
    let (m, answer) := m.openDB cap kind type name area pageArea
    (m, answer.map some)
  | .removeDB type name active =>
    let (m, answer) := m.removeDB type name active
    (m, answer.map fun _ => none)
  | .reopen => (m.reopen, .ok none)
  | .grow _ => (m, .ok none)

def run (m : DirectoryMap) : List DirectoryCall → DirectoryMap × List (Except Refusal (Option Nat))
  | [] => (m, [])
  | call :: calls =>
    let (m, answer) := m.step kind cap call
    let (m, answers) := run m calls
    (m, answer :: answers)

/-- The names have no zero bytes, and the areas that the storage gives are not in use. -/
def Promises (m : DirectoryMap) : DirectoryCall → Prop
  | .openDB _ name area pageArea =>
    0 ∉ name ∧ Directory.Fresh m area ∧ Directory.FreshPage m pageArea
  | _ => True

def Promised (m : DirectoryMap) : List DirectoryCall → Prop
  | [] => True
  | call :: calls => m.Promises call ∧ (m.step kind cap call).1.Promised calls

/-- The reasons why a database is not opened. -/
def MayRefuse (m : DirectoryMap) (type : Nat) (name : Key) (area pageArea : Option Nat) : Prop :=
  56 ≤ name.length ∨
  (∃ v ∈ m.dbs, v.name = name ∧ v.typeId ≠ type) ∨
  (∀ v ∈ m.dbs, v.name ≠ name) ∧
    (area = none ∨
      cap.first + m.pages.length * cap.page ≤ m.dbs.length ∧
        match kind with
        | .mmap => m.pages.length + 1 = Directory.Mmap.maxPages
        | .cache => pageArea = none)

end DirectoryMap

namespace Directory

variable {cap : Capacity} {d d' : Directory} {m : DirectoryMap} {kind : StorageKind}

theorem Stores.open (h : Stores kind cap d m) {name : Key} (hzero : 0 ∉ name) (type : Nat)
    {area pageArea : Option Nat} (hfresh : Fresh m area) (hpage : FreshPage m pageArea) :
    Follows kind cap (Directory.openDB kind cap d type name area pageArea)
      (m.openDB cap kind type name area pageArea) := by
  cases kind with
  | mmap => exact h.openMmap hzero type pageArea hfresh
  | cache => exact h.openCache hzero type hfresh hpage

theorem Stores.step (h : Stores kind cap d m) {call : DirectoryCall} (hcall : m.Promises call) :
    Follows kind cap (Directory.step kind cap d call) (m.step kind cap call) := by
  cases call with
  | openDB type name area pageArea =>
    obtain ⟨hzero, hfresh, hpage⟩ := hcall
    obtain ⟨hstores, heq⟩ := h.open hzero type hfresh hpage
    exact ⟨hstores, congrArg (Except.map some) heq⟩
  | removeDB type name active =>
    obtain ⟨hstores, heq⟩ := h.removeDB type name active
    exact ⟨hstores, congrArg (Except.map fun _ => none) heq⟩
  | reopen => exact ⟨⟨h.rel.reopen, h.placed.mono (Nat.le_refl _)⟩, rfl⟩
  | grow n => exact ⟨h.grow n, rfl⟩

theorem Stores.run (h : Stores kind cap d m) {calls : List DirectoryCall}
    (hcalls : m.Promised kind cap calls) :
    Stores kind cap (Directory.run kind cap d calls).1 (m.run kind cap calls).1 ∧
      (Directory.run kind cap d calls).2 = (m.run kind cap calls).2 := by
  induction calls generalizing d m with
  | nil => exact ⟨h, rfl⟩
  | cons call calls ih =>
    obtain ⟨hstep, hanswer⟩ := h.step hcalls.1
    obtain ⟨hrun, hanswers⟩ := ih hstep hcalls.2
    refine ⟨hrun, ?_⟩
    unfold Directory.run DirectoryMap.run
    dsimp only
    rw [hanswer, hanswers]

/-- The number of overflow pages of a file in memory is bounded. -/
theorem Stores.mayRefuse (h : Stores kind cap d m) {type : Nat} {name : Key}
    {area pageArea : Option Nat} {e : Refusal}
    (hrefused : (m.openDB cap kind type name area pageArea).2 = .error e) :
    m.MayRefuse kind cap type name area pageArea := by
  unfold DirectoryMap.openDB at hrefused
  split at hrefused
  . next hlong => exact Or.inl hlong
  . next =>
    right
    split at hrefused
    . next v hfind =>
      left
      split at hrefused
      . next htype =>
        obtain ⟨hv, hname⟩ := (find_eq_some_iff h.rel.names).1 hfind
        exact ⟨v, hv, hname, htype⟩
      . cases hrefused
    . next hfind =>
      right
      refine ⟨find_eq_none_iff.1 hfind, ?_⟩
      cases area with
      | none => exact Or.inl rfl
      | some a =>
        right
        split at hrefused
        . cases hrefused
        . next hfull =>
          refine ⟨Nat.not_lt.1 hfull, ?_⟩
          cases kind with
          | mmap =>
            dsimp only at hrefused ⊢
            split at hrefused
            . cases hrefused
            . next hpages =>
              have hlt := h.placed.2
              omega
          | cache =>
            cases pageArea with
            | none => rfl
            | some p => cases hrefused

/-! The names of the databases are valid. -/

/-- The names fit into their entries. -/
def Short (m : DirectoryMap) : Prop := ∀ v ∈ m.dbs, v.name.length < 56 ∧ 0 ∉ v.name

theorem Short.subset {m' : DirectoryMap} (h : Short m)
    (hsub : ∀ v ∈ m'.dbs, ∃ w ∈ m.dbs, w.name = v.name) : Short m' := by
  intro v hv
  obtain ⟨w, hw, hname⟩ := hsub v hv
  rw [← hname]
  exact h w hw

theorem Short.create (h : Short m) {name : Key} (hlen : name.length < 56) (hzero : 0 ∉ name)
    (pages : List Nat) (type : Nat) (area : Option Nat) :
    Short (m.create pages type name area).1 := by
  cases area with
  | none => exact h
  | some a =>
    intro v hv
    rcases List.mem_cons.1 hv with rfl | hv
    . exact ⟨hlen, hzero⟩
    . exact h v hv

theorem Short.open (h : Short m) {name : Key} (hzero : 0 ∉ name) (cap : Capacity)
    (kind : StorageKind) (type : Nat) (area pageArea : Option Nat) :
    Short (m.openDB cap kind type name area pageArea).1 := by
  unfold DirectoryMap.openDB
  split
  . exact h
  . next hlong =>
    have hcreate := fun pages area => h.create (Nat.not_le.1 hlong) hzero pages type area
    split
    . split
      . exact h
      . apply h.subset
        intro v hv
        have hmem := List.mem_map_of_mem (f := Db.name) hv
        rw [markOpen_map m name Db.name (fun _ => rfl)] at hmem
        exact List.mem_map.1 hmem
    . split
      . exact hcreate _ _
      . cases kind with
        | mmap =>
          dsimp only
          split
          . exact hcreate _ _
          . exact h
        | cache =>
          unfold DirectoryMap.createInPage
          dsimp only
          split
          . exact hcreate _ _
          . exact h

theorem Short.step (h : Short m) (kind : StorageKind) (cap : Capacity) {call : DirectoryCall}
    (hcall : m.Promises call) : Short (m.step kind cap call).1 := by
  cases call with
  | openDB type name area pageArea => exact h.open hcall.1 cap kind type area pageArea
  | removeDB type name active =>
    unfold DirectoryMap.step DirectoryMap.removeDB
    dsimp only
    split
    . exact h
    . split
      . exact h
      . split
        . exact h
        . apply h.subset
          intro v hv
          exact ⟨v, List.mem_of_mem_eraseP hv, rfl⟩
  | reopen =>
    apply h.subset
    intro v hv
    obtain ⟨w, hw, rfl⟩ := List.mem_map.1 hv
    exact ⟨w, hw, rfl⟩
  | grow n => exact h

theorem Short.run (h : Short m) {calls : List DirectoryCall}
    (hcalls : m.Promised kind cap calls) : Short (m.run kind cap calls).1 := by
  induction calls generalizing m with
  | nil => exact h
  | cons call calls ih => exact ih (h.step kind cap hcalls.1) hcalls.2

/-- A directory that works as the map. -/
structure Serves (kind : StorageKind) (cap : Capacity) (d : Directory) (m : DirectoryMap) :
    Prop where
  lists : ∃ names, listDbs cap d (maxPages kind d) = some names ∧ names.Nodup ∧
    ∀ name, name ∈ names ↔ ∃ v ∈ m.dbs, v.name = name
  handles : ∀ name slot, d.opened name = some slot →
    ∃ v ∈ m.dbs, v.name = name ∧ slot = ⟨v.offset, v.typeId⟩
  finds : ∀ v ∈ m.dbs, ∀ area pageArea, m.Promises (.openDB v.typeId v.name area pageArea) →
    (openDB kind cap d v.typeId v.name area pageArea).2 = .ok v.offset
  refuses : ∀ type name area pageArea, m.Promises (.openDB type name area pageArea) →
    ∀ e, (openDB kind cap d type name area pageArea).2 = .error e →
      m.MayRefuse kind cap type name area pageArea
  removes : ∀ v ∈ m.dbs, ∀ active, (v.isOpen = true → active = false) →
    (removeDB kind cap d v.typeId v.name active).2 = .ok ()
  frees : ∀ type name active, FreesOrKeeps d name (removeDB kind cap d type name active)

theorem Stores.listDbs (h : Stores kind cap d m) :
    ∃ names, listDbs cap d (Directory.maxPages kind d) = some names ∧
      names.Perm (m.dbs.map Db.name) := by
  refine ⟨_, listDbs_eq h.rel.wf (h.placed.length_le h.rel.wf.nodup), ?_⟩
  have hperm := h.rel.live.map DBEntry.name
  rw [List.map_map] at hperm
  exact hperm

theorem Stores.serves (h : Stores kind cap d m) (hshort : Short m) : Serves kind cap d m where
  lists := by
    obtain ⟨names, hnames, hperm⟩ := h.listDbs
    refine ⟨names, hnames, hperm.nodup_iff.2 h.rel.names, ?_⟩
    intro name
    rw [hperm.mem_iff, List.mem_map]
  handles := by
    intro name slot hslot
    obtain ⟨v, hfind, -, rfl⟩ := h.rel.of_opened hslot
    obtain ⟨hv, hname⟩ := (find_eq_some_iff h.rel.names).1 hfind
    exact ⟨v, hv, hname, rfl⟩
  finds := by
    intro v hv area pageArea hcall
    have hfind := (find_eq_some_iff h.rel.names).2 ⟨hv, rfl⟩
    rw [(h.open hcall.1 v.typeId hcall.2.1 hcall.2.2).2]
    unfold DirectoryMap.openDB
    rw [if_neg (Nat.not_le.2 (hshort v hv).1), hfind]
    dsimp only
    rw [if_neg (not_not.2 rfl)]
  refuses := by
    intro type name area pageArea hcall e hrefused
    rw [(h.open hcall.1 type hcall.2.1 hcall.2.2).2] at hrefused
    exact h.mayRefuse hrefused
  removes := by
    intro v hv active hactive
    have hfind := (find_eq_some_iff h.rel.names).2 ⟨hv, rfl⟩
    rw [(h.removeDB v.typeId v.name active).2]
    unfold DirectoryMap.removeDB
    rw [hfind]
    dsimp only
    rw [if_neg (not_not.2 rfl), if_neg]
    rintro ⟨hopen, hact⟩
    rw [hactive hopen] at hact
    cases hact
  frees := h.removeDB_frees

theorem fresh_none (m : DirectoryMap) : Fresh m none := fun _ h => nomatch h

theorem fresh_some {m : DirectoryMap} {a : Nat} (h : a + AREA_HEADER_SIZE ∉ m.dbs.map Db.offset) :
    Fresh m (some a) := by
  rintro _ ⟨⟩
  exact h

theorem freshPage_none (m : DirectoryMap) : FreshPage m none := fun _ h => nomatch h

theorem freshPage_some {m : DirectoryMap} {a : Nat}
    (h : AREA_SIZE ∣ a ∧ a + AREA_HEADER_SIZE ∉ m.pages) : FreshPage m (some a) := by
  rintro _ ⟨⟩
  exact h

/-- Two databases, the second one in an overflow page, of which the first one is removed. -/
def fewCalls : List DirectoryCall :=
  [.openDB 0 [97] (some AREA_SIZE) none,
    .openDB 1 [98] (some (3 * AREA_SIZE)) (some (2 * AREA_SIZE)),
    .reopen,
    .removeDB 0 [97] false,
    .openDB 1 [98] none none]

end Directory
end Leaves
