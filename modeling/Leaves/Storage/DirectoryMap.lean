import Leaves.Storage.DirectoryLemmas
import Mathlib.Data.List.Perm.Subperm

/-!
The directory as a finite map from names to databases, and what each call makes of it.
-/

namespace Leaves

/-- A database that exists. -/
structure Db where
  name : Key
  offset : Nat
  typeId : Nat
  isOpen : Bool
  deriving DecidableEq, Repr

/-- The databases, and the overflow pages that there are by now. -/
structure DirectoryMap where
  dbs : List Db
  pages : List Nat
  deriving DecidableEq, Repr

inductive StorageKind where
  | mmap
  | cache
  deriving DecidableEq, Repr

namespace DirectoryMap

def init : DirectoryMap := ⟨[], []⟩

variable (cap : Capacity) (m : DirectoryMap)

def find (name : Key) : Option Db := m.dbs.find? fun v => v.name = name

def markOpen (name : Key) : DirectoryMap :=
  { m with dbs := m.dbs.map fun v => if v.name = name then { v with isOpen := true } else v }

def erase (name : Key) : DirectoryMap :=
  { m with dbs := m.dbs.eraseP fun v => v.name = name }

/-- A database is created, if there is an area for it. -/
def create (pages : List Nat) (type : Nat) (name : Key) (area : Option Nat) :
    DirectoryMap × Except Refusal Nat :=
  match area with
  | none => ({ m with pages }, .error .storageFull)
  | some area =>
    let offset := area + AREA_HEADER_SIZE
    (⟨⟨name, offset, type, true⟩ :: m.dbs, pages⟩, .ok offset)

/-- A database is created with a new overflow page, if there is an area for each of them. -/
def createInPage (type : Nat) (name : Key) (area pageArea : Option Nat) :
    DirectoryMap × Except Refusal Nat :=
  match pageArea, area with
  | some pageArea, some area =>
    m.create (m.pages ++ [pageArea + AREA_HEADER_SIZE]) type name (some area)
  | _, _ => (m, .error .storageFull)

/-- A database is opened. A new one is refused only if there is no area for it or for the overflow
page that it needs; a file in memory has place for a number of overflow pages. -/
def openDB (kind : StorageKind) (type : Nat) (name : Key) (area pageArea : Option Nat) :
    DirectoryMap × Except Refusal Nat :=
  if 56 ≤ name.length then
    (m, .error .keyTooBig)
  else
    match m.find name with
    | some v =>
      if v.typeId ≠ type then (m, .error .typeMismatch) else (m.markOpen name, .ok v.offset)
    | none =>
      if m.dbs.length < cap.first + m.pages.length * cap.page then
        m.create m.pages type name area
      else
        match kind with
        | .mmap =>
          if m.pages.length + 1 < Directory.Mmap.maxPages then
            m.create (m.pages ++ [Directory.Mmap.PAGE_BYTES * (m.pages.length + 1)]) type name area
          else
            (m, .error .directoryFull)
        | .cache => m.createInPage type name area pageArea

def removeDB (type : Nat) (name : Key) (active : Bool) : DirectoryMap × Except Refusal Unit :=
  match m.find name with
  | none => (m, .error .notExisting)
  | some v =>
    if v.typeId ≠ type then
      (m, .error .typeMismatch)
    else if v.isOpen ∧ active then
      (m, .error .transactionActive)
    else
      (m.erase name, .ok ())

def reopen : DirectoryMap := { m with dbs := m.dbs.map fun v => { v with isOpen := false } }

end DirectoryMap

namespace Directory

variable {cap : Capacity} {d d' : Directory} {m : DirectoryMap} {pages pages' : List Nat}

/-- The directory stores the map. -/
structure Rel (cap : Capacity) (d : Directory) (m : DirectoryMap) : Prop where
  wf : WF cap d m.pages
  live : (live cap d m.pages).Perm (m.dbs.map fun v => ⟨v.name, v.offset⟩)
  names : (m.dbs.map Db.name).Nodup
  offsets : (m.dbs.map Db.offset).Nodup
  types : ∀ v ∈ m.dbs, d.dbTypeId v.offset = v.typeId
  opened : ∀ name, d.opened name =
    (m.find name).bind fun v => if v.isOpen then some ⟨v.offset, v.typeId⟩ else none

theorem find_eq_some_iff (hnodup : (m.dbs.map Db.name).Nodup) {name : Key} {v : Db} :
    m.find name = some v ↔ v ∈ m.dbs ∧ v.name = name := by
  unfold DirectoryMap.find
  constructor
  . intro h
    have hname := List.find?_some h
    exact ⟨List.mem_of_find?_eq_some h, of_decide_eq_true hname⟩
  . rintro ⟨hv, hname⟩
    cases h : m.dbs.find? fun v => decide (v.name = name) with
    | none =>
      rw [List.find?_eq_none] at h
      exact absurd (decide_eq_true hname) (h v hv)
    | some w =>
      have hw := List.mem_of_find?_eq_some h
      have hname' := List.find?_some h
      rw [List.inj_on_of_nodup_map hnodup hw hv ((of_decide_eq_true hname').trans hname.symm)]

theorem find_eq_none_iff {name : Key} : m.find name = none ↔ ∀ v ∈ m.dbs, v.name ≠ name := by
  unfold DirectoryMap.find
  rw [List.find?_eq_none]
  constructor
  . intro h v hv hname
    exact h v hv (decide_eq_true hname)
  . intro h v hv hname
    exact h v hv (of_decide_eq_true hname)

theorem mem_live {e : DBEntry} :
    e ∈ live cap d pages ↔ e.offset ≠ 0 ∧ ∃ ptr ∈ ptrs cap d pages, d.entry ptr = e := by
  unfold live lives
  rw [List.mem_flatMap]
  constructor
  . rintro ⟨ptr, hptr, he⟩
    split at he
    . next hoff =>
      rw [List.mem_singleton] at he
      subst he
      exact ⟨hoff, ptr, hptr, rfl⟩
    . cases he
  . rintro ⟨hoff, ptr, hptr, rfl⟩
    refine ⟨ptr, hptr, ?_⟩
    rw [if_pos hoff]
    exact List.mem_singleton_self _

namespace Rel

theorem mem_live_iff (h : Rel cap d m) {e : DBEntry} :
    e ∈ Directory.live cap d m.pages ↔ ∃ v ∈ m.dbs, e = ⟨v.name, v.offset⟩ := by
  rw [h.live.mem_iff, List.mem_map]
  constructor
  . rintro ⟨v, hv, rfl⟩
    exact ⟨v, hv, rfl⟩
  . rintro ⟨v, hv, rfl⟩
    exact ⟨v, hv, rfl⟩

theorem offset_ne (h : Rel cap d m) {v : Db} (hv : v ∈ m.dbs) : v.offset ≠ 0 :=
  (mem_live.1 (h.mem_live_iff.2 ⟨v, hv, rfl⟩)).1

/-- The entry with a name that is found. -/
theorem of_find_some (h : Rel cap d m) {name : Key} {ptr : EntryPtr}
    (hfind : (ptrs cap d m.pages).find? (Cache.match_ d name) = some ptr) :
    ptr ∈ ptrs cap d m.pages ∧
    ∃ v, m.find name = some v ∧ d.entry ptr = ⟨v.name, v.offset⟩ := by
  have hptr := List.mem_of_find?_eq_some hfind
  have hmatch := List.find?_some hfind
  obtain ⟨hoff, hname⟩ := of_decide_eq_true hmatch
  obtain ⟨v, hv, heq⟩ := h.mem_live_iff.1 (mem_live.2 ⟨hoff, ptr, hptr, rfl⟩)
  refine ⟨hptr, v, ?_, heq⟩
  rw [find_eq_some_iff h.names]
  rw [heq] at hname
  exact ⟨hv, hname⟩

theorem of_find_none (h : Rel cap d m) {name : Key}
    (hfind : (ptrs cap d m.pages).find? (Cache.match_ d name) = none) : m.find name = none := by
  rw [find_eq_none_iff]
  intro v hv hname
  obtain ⟨hoff, ptr, hptr, heq⟩ := mem_live.1 (h.mem_live_iff.2 ⟨v, hv, rfl⟩)
  rw [List.find?_eq_none] at hfind
  apply hfind ptr hptr
  unfold Cache.match_
  rw [heq]
  exact decide_eq_true ⟨hoff, hname⟩

/-- A database that is open. -/
theorem of_opened (h : Rel cap d m) {name : Key} {slot : DBSlot}
    (hslot : d.opened name = some slot) :
    ∃ v, m.find name = some v ∧ v.isOpen = true ∧ slot = ⟨v.offset, v.typeId⟩ := by
  rw [h.opened] at hslot
  cases hfind : m.find name with
  | none =>
    rw [hfind] at hslot
    cases hslot
  | some v =>
    rw [hfind, Option.bind_some] at hslot
    split at hslot
    . next hopen => exact ⟨v, rfl, hopen, (Option.some_inj.1 hslot).symm⟩
    . cases hslot

theorem not_open (h : Rel cap d m) {name : Key} (hslot : d.opened name = none) {v : Db}
    (hfind : m.find name = some v) : v.isOpen = false := by
  rw [h.opened, hfind, Option.bind_some] at hslot
  cases hopen : v.isOpen with
  | false => rfl
  | true =>
    rw [hopen, if_pos rfl] at hslot
    cases hslot

end Rel

/-! Opening a database that exists. -/

theorem find_markOpen (m : DirectoryMap) (name name' : Key) :
    (m.markOpen name).find name' =
      (m.find name').map fun v => if v.name = name then { v with isOpen := true } else v := by
  unfold DirectoryMap.find DirectoryMap.markOpen
  dsimp only
  rw [List.find?_map]
  congr 2
  funext v
  dsimp only [Function.comp_apply]
  split <;> rfl

theorem markOpen_map {β : Type} (m : DirectoryMap) (name : Key) (f : Db → β)
    (hf : ∀ v : Db, f { v with isOpen := true } = f v) :
    (m.markOpen name).dbs.map f = m.dbs.map f := by
  unfold DirectoryMap.markOpen
  rw [List.map_map]
  apply List.map_congr_left
  intro v _
  dsimp only [Function.comp_apply]
  split
  . exact hf v
  . rfl

theorem markOpen_of_open (hnodup : (m.dbs.map Db.name).Nodup) {name : Key} {v : Db}
    (hfind : m.find name = some v) (hopen : v.isOpen = true) : m.markOpen name = m := by
  rw [find_eq_some_iff hnodup] at hfind
  have hsame : (m.dbs.map fun w => if w.name = name then { w with isOpen := true } else w)
      = m.dbs.map id := by
    apply List.map_congr_left
    intro w hw
    split
    . next hname =>
      rw [List.inj_on_of_nodup_map hnodup hw hfind.1 (hname.trans hfind.2.symm)]
      obtain ⟨_, _, _, _⟩ := v
      cases hopen
      rfl
    . rfl
  unfold DirectoryMap.markOpen
  rw [hsame, List.map_id]

/-- The database with a name is constructed. -/
theorem Rel.openExisting (h : Rel cap d m) {name : Key} {v : Db} (hfind : m.find name = some v)
    (type : Nat) :
    ∃ m', Rel cap (d.openExisting type name v.offset).1 m' ∧ m'.pages = m.pages ∧
      (m', (d.openExisting type name v.offset).2) =
        if v.typeId ≠ type then (m, .error .typeMismatch) else (m.markOpen name, .ok v.offset) := by
  have hv := (find_eq_some_iff h.names).1 hfind
  unfold Directory.openExisting
  rw [h.types v hv.1]
  by_cases htype : v.typeId ≠ type
  . rw [if_pos htype, if_pos htype]
    exact ⟨m, h, rfl, rfl⟩
  . rw [if_neg htype, if_neg htype]
    rw [not_not] at htype
    refine ⟨m.markOpen name, ?_, rfl, rfl⟩
    constructor
    . exact h.wf.congr rfl rfl rfl rfl
    . rw [markOpen_map m name (fun v => (⟨v.name, v.offset⟩ : DBEntry)) (fun _ => rfl)]
      exact h.live
    . rw [markOpen_map m name Db.name (fun _ => rfl)]
      exact h.names
    . rw [markOpen_map m name Db.offset (fun _ => rfl)]
      exact h.offsets
    . intro w hw
      unfold DirectoryMap.markOpen at hw
      rw [List.mem_map] at hw
      obtain ⟨u, hu, rfl⟩ := hw
      split <;> exact h.types u hu
    . intro name'
      rw [find_markOpen]
      dsimp only
      by_cases hname : name' = name
      . subst hname
        rw [Function.update_self, hfind, Option.map_some, if_pos hv.2, Option.bind_some, if_pos rfl,
          htype]
      . rw [Function.update_of_ne hname, h.opened]
        cases hother : m.find name' with
        | none => rfl
        | some w =>
          have hw := ((find_eq_some_iff h.names).1 hother).2
          rw [Option.map_some, if_neg (fun heq => hname (hw.symm.trans heq))]

/-! A database is created in a free entry, or its entry becomes free. -/

theorem Rel.create (h : Rel cap d m) {ptr : EntryPtr} (hres : Reserved cap d m.pages d' pages' ptr)
    {name : Key} (hnone : m.find name = none) (hname : cstring name = name) (type : Nat)
    {area : Option Nat}
    (hfresh : ∀ a, area = some a → a + AREA_HEADER_SIZE ∉ m.dbs.map Db.offset) :
    Rel cap (d'.create ptr type name area).1 (m.create pages' type name area).1 ∧
      (d'.create ptr type name area).2 = (m.create pages' type name area).2 := by
  obtain ⟨others, hothers, hset⟩ := live_split hres.wf hres.mem
  rw [lives_of_free hres.free, List.nil_append, hres.live] at hothers
  have hmap := h.live.symm.trans hothers
  cases area with
  | none =>
    refine ⟨?_, rfl⟩
    have hoff : (⟨cstring name, (d'.entry ptr).offset⟩ : DBEntry).offset = 0 := hres.free
    have hlive := hset ⟨cstring name, (d'.entry ptr).offset⟩
    rw [lives_of_free hoff, List.nil_append] at hlive
    have hsame : (d'.setEntry ptr ⟨cstring name, (d'.entry ptr).offset⟩).dbTypeId = d.dbTypeId ∧
        (d'.setEntry ptr ⟨cstring name, (d'.entry ptr).offset⟩).opened = d.opened := by
      rw [← hres.dbTypeId, ← hres.opened]
      cases ptr <;> exact ⟨rfl, rfl⟩
    constructor
    . exact hres.wf.setEntry hres.mem _
    . exact hlive.trans hmap.symm
    . exact h.names
    . exact h.offsets
    . intro v hv
      unfold Directory.create
      rw [hsame.1]
      exact h.types v hv
    . intro name'
      unfold Directory.create
      rw [hsame.2]
      exact h.opened name'
  | some a =>
    refine ⟨?_, rfl⟩
    have hfree := hfresh a rfl
    have hoff : a + AREA_HEADER_SIZE ≠ 0 := by
      rw [AREA_HEADER_SIZE]
      omega
    have hlive := hset ⟨cstring name, a + AREA_HEADER_SIZE⟩
    have hlives : lives (⟨cstring name, a + AREA_HEADER_SIZE⟩ : DBEntry) =
        [⟨name, a + AREA_HEADER_SIZE⟩] := by
      unfold lives
      rw [if_pos hoff, hname]
    rw [hlives, List.singleton_append] at hlive
    unfold Directory.create newDB DirectoryMap.create
    dsimp only
    have hfields : (d'.setEntry ptr ⟨cstring name, a + AREA_HEADER_SIZE⟩).dbTypeId = d.dbTypeId ∧
        (d'.setEntry ptr ⟨cstring name, a + AREA_HEADER_SIZE⟩).opened = d.opened := by
      rw [← hres.dbTypeId, ← hres.opened]
      cases ptr <;> exact ⟨rfl, rfl⟩
    obtain ⟨htypes, hopened⟩ := hfields
    constructor
    . exact (hres.wf.setEntry hres.mem _).congr rfl rfl rfl rfl
    . exact hlive.trans (hmap.symm.cons _)
    . rw [List.map_cons, List.nodup_cons]
      refine ⟨?_, h.names⟩
      intro hmem
      rw [List.mem_map] at hmem
      obtain ⟨v, hv, heq⟩ := hmem
      exact find_eq_none_iff.1 hnone v hv heq
    . rw [List.map_cons, List.nodup_cons]
      exact ⟨hfree, h.offsets⟩
    . intro v hv
      rw [List.mem_cons] at hv
      dsimp only
      rcases hv with rfl | hv
      . rw [Function.update_self]
      . rw [Function.update_of_ne, htypes]
        . exact h.types v hv
        . intro heq
          exact hfree (heq ▸ List.mem_map_of_mem hv)
    . intro name'
      unfold DirectoryMap.find
      dsimp only
      rw [List.find?_cons, hopened]
      by_cases hnew : name' = name
      . subst hnew
        rw [Function.update_self, decide_eq_true rfl]
        rfl
      . rw [Function.update_of_ne hnew, decide_eq_false (Ne.symm hnew)]
        exact h.opened name'

theorem erase_split (hnodup : (m.dbs.map Db.name).Nodup) {name : Key} {v : Db}
    (hfind : m.find name = some v) :
    ∃ l r, m.dbs = l ++ v :: r ∧ (m.erase name).dbs = l ++ r := by
  obtain ⟨hv, hname⟩ := (find_eq_some_iff hnodup).1 hfind
  obtain ⟨w, l, r, -, hw, heq, herase⟩ :=
    List.exists_of_eraseP (p := fun w : Db => w.name = name) hv (decide_eq_true hname)
  have hwname : w.name = name := of_decide_eq_true hw
  have hmem : w ∈ m.dbs := by
    rw [heq]
    simp
  rw [List.inj_on_of_nodup_map hnodup hmem hv (hwname.trans hname.symm)] at heq
  exact ⟨l, r, heq, herase⟩

/-- The entry of a database becomes free. -/
theorem Rel.freeEntry (h : Rel cap d m) {ptr : EntryPtr} (hptr : ptr ∈ ptrs cap d m.pages)
    {name : Key} {v : Db} (hfind : m.find name = some v)
    (hentry : d.entry ptr = ⟨v.name, v.offset⟩) :
    Rel cap (d.freeEntry ptr name) (m.erase name) := by
  obtain ⟨hv, hname⟩ := (find_eq_some_iff h.names).1 hfind
  obtain ⟨l, r, hsplit, herase⟩ := erase_split h.names hfind
  obtain ⟨others, hothers, hset⟩ := live_split h.wf hptr
  have hmiddle : ∀ {β : Type} (f : Db → β),
      (m.dbs.map f).Perm (f v :: (m.erase name).dbs.map f) := by
    intro β f
    rw [hsplit, herase, List.map_append, List.map_append, List.map_cons]
    exact List.perm_middle
  have hlives : lives (d.entry ptr) = [⟨v.name, v.offset⟩] := by
    rw [hentry]
    exact if_pos (h.offset_ne hv)
  rw [hlives, List.singleton_append] at hothers
  have hrest := (hothers.symm.trans (h.live.trans (hmiddle _))).cons_inv
  have hlive := hset { d.entry ptr with offset := 0 }
  rw [lives_of_free rfl, List.nil_append] at hlive
  have hnames := (hmiddle Db.name).nodup_iff.1 h.names
  have hoffsets := (hmiddle Db.offset).nodup_iff.1 h.offsets
  rw [List.nodup_cons] at hnames hoffsets
  have hmem : ∀ w ∈ (m.erase name).dbs, w ∈ m.dbs := by
    intro w hw
    rw [herase, List.mem_append] at hw
    rw [hsplit, List.mem_append, List.mem_cons]
    tauto
  have hfields : (d.setEntry ptr { d.entry ptr with offset := 0 }).dbTypeId = d.dbTypeId ∧
      (d.setEntry ptr { d.entry ptr with offset := 0 }).opened = d.opened := by
    cases ptr <;> exact ⟨rfl, rfl⟩
  constructor
  . exact (h.wf.setEntry hptr _).congr rfl rfl rfl rfl
  . exact hlive.trans hrest
  . exact hnames.2
  . exact hoffsets.2
  . intro w hw
    unfold Directory.freeEntry
    dsimp only
    rw [hfields.1]
    exact h.types w (hmem w hw)
  . intro name'
    unfold Directory.freeEntry
    dsimp only
    rw [hfields.2]
    by_cases heq : name' = name
    . subst heq
      have hnone : (m.erase name').find name' = none := by
        rw [find_eq_none_iff]
        intro w hw hwname
        apply hnames.1
        rw [List.mem_map]
        exact ⟨w, hw, hwname.trans hname.symm⟩
      rw [Function.update_self, hnone]
      rfl
    . rw [Function.update_of_ne heq, h.opened]
      congr 1
      ext w
      rw [find_eq_some_iff h.names, find_eq_some_iff hnames.2, hsplit, herase, List.mem_append,
        List.mem_append, List.mem_cons]
      constructor
      . rintro ⟨hl | rfl | hr, hw⟩
        . exact ⟨Or.inl hl, hw⟩
        . exact absurd (hw.symm.trans hname) heq
        . exact ⟨Or.inr hr, hw⟩
      . rintro ⟨hl | hr, hw⟩
        . exact ⟨Or.inl hl, hw⟩
        . exact ⟨Or.inr (Or.inr hr), hw⟩

/-- The storage is opened again: no database is open. -/
theorem Rel.reopen (h : Rel cap d m) : Rel cap d.reopen m.reopen := by
  have hmap : ∀ {β : Type} (f : Db → β), (∀ v : Db, f { v with isOpen := false } = f v) →
      m.reopen.dbs.map f = m.dbs.map f := by
    intro β f hf
    unfold DirectoryMap.reopen
    rw [List.map_map]
    apply List.map_congr_left
    intro v _
    exact hf v
  constructor
  . exact h.wf.congr rfl rfl rfl rfl
  . rw [hmap (fun v => (⟨v.name, v.offset⟩ : DBEntry)) (fun _ => rfl)]
    exact h.live
  . rw [hmap Db.name (fun _ => rfl)]
    exact h.names
  . rw [hmap Db.offset (fun _ => rfl)]
    exact h.offsets
  . intro w hw
    unfold DirectoryMap.reopen at hw
    rw [List.mem_map] at hw
    obtain ⟨u, hu, rfl⟩ := hw
    exact h.types u hu
  . intro name
    have hfind : m.reopen.find name = (m.find name).map fun v => { v with isOpen := false } := by
      unfold DirectoryMap.reopen DirectoryMap.find
      dsimp only
      rw [List.find?_map]
      rfl
    rw [hfind]
    cases m.find name <;> rfl

/-! How many entries there are. -/

theorem length_live (cap : Capacity) (d : Directory) (pages : List Nat) :
    (live cap d pages).length = (ptrs cap d pages).countP fun ptr => !hole d ptr := by
  unfold live
  induction ptrs cap d pages with
  | nil => rfl
  | cons ptr l ih =>
    rw [List.flatMap_cons, List.length_append, ih, List.countP_cons, Nat.add_comm]
    congr 1
    unfold lives hole
    by_cases h : (d.entry ptr).offset = 0 <;> simp [h]

theorem length_live_lt {ptr : EntryPtr} (hptr : ptr ∈ ptrs cap d pages)
    (hfree : (d.entry ptr).offset = 0) :
    (live cap d pages).length < (ptrs cap d pages).length := by
  rw [length_live]
  apply Nat.lt_of_le_of_ne List.countP_le_length
  intro heq
  rw [List.countP_eq_length] at heq
  have hnot := heq ptr hptr
  unfold hole at hnot
  simp [hfree] at hnot

theorem length_live_eq (h : ∀ ptr ∈ ptrs cap d pages, (d.entry ptr).offset ≠ 0) :
    (live cap d pages).length = (ptrs cap d pages).length := by
  rw [length_live, List.countP_eq_length]
  intro ptr hptr
  unfold hole
  simp [h ptr hptr]

theorem length_pagePtrs_le (cap : Capacity) (d : Directory) (pages : List Nat) :
    (pages.flatMap (pagePtrs cap d)).length ≤ pages.length * cap.page := by
  induction pages with
  | nil => exact Nat.zero_le _
  | cons p pages ih =>
    rw [List.flatMap_cons, List.length_append, List.length_cons, Nat.succ_mul, Nat.add_comm]
    apply Nat.add_le_add ih
    unfold pagePtrs
    rw [List.length_map, List.length_range]
    exact Nat.min_le_right ..

theorem length_pagePtrs_eq (h : ∀ p ∈ pages, (d.pages p).count = cap.page) :
    (pages.flatMap (pagePtrs cap d)).length = pages.length * cap.page := by
  induction pages with
  | nil =>
    rw [List.flatMap_nil, List.length_nil, List.length_nil, Nat.zero_mul]
  | cons p pages ih =>
    rw [List.flatMap_cons, List.length_append, List.length_cons, Nat.succ_mul, Nat.add_comm,
      ih fun q hq => h q (List.mem_cons_of_mem p hq)]
    congr 1
    unfold pagePtrs
    rw [List.length_map, List.length_range, h p List.mem_cons_self, Nat.min_self]

theorem length_ptrs_le (cap : Capacity) (d : Directory) (pages : List Nat) :
    (ptrs cap d pages).length ≤ cap.first + pages.length * cap.page := by
  unfold ptrs firstPtrs
  rw [List.length_append, List.length_map, List.length_range]
  exact Nat.add_le_add (Nat.min_le_right ..) (length_pagePtrs_le cap d pages)

theorem length_ptrs_eq (hfirst : d.dbEntryCount = cap.first)
    (h : ∀ p ∈ pages, (d.pages p).count = cap.page) :
    (ptrs cap d pages).length = cap.first + pages.length * cap.page := by
  unfold ptrs firstPtrs
  rw [List.length_append, List.length_map, List.length_range, hfirst, Nat.min_self,
    length_pagePtrs_eq h]

theorem Rel.length_eq (h : Rel cap d m) : (Directory.live cap d m.pages).length = m.dbs.length := by
  rw [h.live.length_eq, List.length_map]

/-- While an entry can be had without a new page, the directory is not full. -/
theorem Rel.lt_of_reserved (h : Rel cap d m) {ptr : EntryPtr}
    (hres : Reserved cap d m.pages d' m.pages ptr) :
    m.dbs.length < cap.first + m.pages.length * cap.page := by
  rw [← h.length_eq, ← hres.live]
  exact Nat.lt_of_lt_of_le (length_live_lt hres.mem hres.free) (length_ptrs_le cap d' m.pages)

/-- If there is neither a free entry nor room, it is. -/
theorem Rel.not_lt_of_full (h : Rel cap d m) (hfirst : d.dbEntryCount = cap.first)
    (hpages : ∀ p ∈ m.pages, (d.pages p).count = cap.page)
    (hholes : ∀ ptr ∈ ptrs cap d m.pages, (d.entry ptr).offset ≠ 0) :
    ¬m.dbs.length < cap.first + m.pages.length * cap.page := by
  rw [← h.length_eq, length_live_eq hholes, length_ptrs_eq hfirst hpages]
  exact Nat.lt_irrefl _

end Directory
end Leaves
