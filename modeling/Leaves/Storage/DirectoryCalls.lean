import Leaves.Storage.Directory

/-!
`open`, `remove` and `list_dbs` of the two kinds of storages: `_MemoryMapFile` of
`storage/_mmap.hpp` with overflow pages in its first area, and `_CacheStore` of
`storage/_cachestore.hpp` with an area for each overflow page.
-/

namespace Leaves

/-- The exceptions. -/
inductive Refusal where
  | keyTooBig
  | typeMismatch
  | transactionActive
  | notExisting
  | storageFull
  | directoryFull
  | cyclic
  deriving DecidableEq, Repr

/-- What a call leaves and returns. -/
abbrev Answer (α : Type) := Directory × Except Refusal α

namespace Directory

/-- `new DB`: the offset of the header is returned, or there is no area. -/
def create (d : Directory) (ptr : EntryPtr) (type : Nat) (name : Key) (area : Option Nat) :
    Answer Nat :=
  match area with
  | none => (d.setEntry ptr ⟨cstring name, (d.entry ptr).offset⟩, .error .storageFull)
  | some area => (d.newDB ptr type name area, .ok (area + AREA_HEADER_SIZE))

/-- The database at an offset is constructed and kept, if it has the type. -/
def openExisting (d : Directory) (type : Nat) (name : Key) (offset : Nat) : Answer Nat :=
  if d.dbTypeId offset ≠ type then
    (d, .error .typeMismatch)
  else
    ({ d with opened := Function.update d.opened name (some ⟨offset, type⟩) }, .ok offset)

namespace Mmap

variable (cap : Capacity)

/-- The overflow pages have 4 KiB each. -/
def PAGE_BYTES : Nat := 4096

/-- More pages than the first area can have. -/
def maxPages : Nat := AREA_SIZE / PAGE_BYTES

/-- The callback of `open`: the first free entry, and the entry with the name. -/
def scan (d : Directory) (name : Key) (ptr : EntryPtr) (st : Option EntryPtr × Option EntryPtr) :
    (Option EntryPtr × Option EntryPtr) × Bool :=
  let e := d.entry ptr
  if e.offset ≠ 0 then
    if e.name = name then ((st.1, some ptr), false) else (st, true)
  else
    ((if st.1.isNone then some ptr else st.1, st.2), true)

/-- `_alloc_overflow_slot`. The inner `none` is the null pointer. -/
def allocOverflowSlot (d : Directory) : Option (Option (Directory × EntryPtr)) :=
  match findPlace cap d DirectoryPage.count maxPages d.dbNextPage 0 with
  | none => none
  | some (.hole ptr) => some (some (d, ptr))
  | some (.room page) => some (some (d.extendPage page, .overflow page (d.pages page).count))
  | some (.none last) =>
    let newOff := if last ≠ 0 then last + PAGE_BYTES else PAGE_BYTES
    if AREA_SIZE < newOff + PAGE_BYTES then
      some none
    else
      some (some (d.appendPage last newOff, .overflow newOff 0))

/-- `open`, with the area for a new database. -/
def openDB (d : Directory) (type : Nat) (name : Key) (area : Option Nat) : Answer Nat :=
  if 56 ≤ name.length then
    (d, .error .keyTooBig)
  else
    match d.opened name with
    | some slot => (d, if slot.typeId ≠ type then .error .typeMismatch else .ok slot.offset)
    | none =>
      match forEachEntry cap d maxPages (scan d name) (none, none) with
      | none => (d, .error .cyclic)
      | some (_, some found) => d.openExisting type name (d.entry found).offset
      | some (some free, none) => d.create free type name area
      | some (none, none) =>
        let hwm := min d.dbEntryCount cap.first
        if hwm < cap.first then
          { d with dbEntryCount := hwm + 1 }.create (.first hwm) type name area
        else
          match allocOverflowSlot cap d with
          | none => (d, .error .cyclic)
          | some none => (d, .error .directoryFull)
          | some (some (d, slot)) => d.create slot type name area

/-- The callback of `remove`, up to the entry with the name. -/
def seek (d : Directory) (name : Key) (ptr : EntryPtr) (st : Option EntryPtr) :
    Option EntryPtr × Bool :=
  let e := d.entry ptr
  if e.offset ≠ 0 ∧ e.name = name then (some ptr, false) else (st, true)

/-- `remove`. `active` is what `is_active()` of the open database says. -/
def removeDB (d : Directory) (type : Nat) (name : Key) (active : Bool) : Answer Unit :=
  match d.opened name with
  | some slot =>
    if slot.typeId ≠ type then
      (d, .error .typeMismatch)
    else if active then
      (d, .error .transactionActive)
    else
      match forEachEntry cap d maxPages (seek d name) none with
      | none => (d, .error .cyclic)
      | some none => (d, .error .notExisting)
      | some (some ptr) => (d.freeEntry ptr name, .ok ())
  | none =>
    match forEachEntry cap d maxPages (seek d name) none with
    | none => (d, .error .cyclic)
    | some none => (d, .error .notExisting)
    | some (some ptr) =>
      if d.dbTypeId (d.entry ptr).offset ≠ type then
        (d, .error .typeMismatch)
      else
        (d.freeEntry ptr name, .ok ())

end Mmap

namespace Cache

variable (cap : Capacity)

/-- `_max_directory_pages` -/
def maxPages (d : Directory) : Nat := d.fileSize / AREA_SIZE + 1

/-- The entry with the name among these. -/
def match_ (d : Directory) (name : Key) (ptr : EntryPtr) : Bool :=
  decide ((d.entry ptr).offset ≠ 0 ∧ (d.entry ptr).name = name)

/-- `_find_in_overflow_pages` and the search of `_remove_from_overflow_pages`. The outer `none` is
the exception for a cycle. -/
def findInOverflowPages (d : Directory) (name : Key) : Nat → Nat → Option (Option EntryPtr)
  | n, next =>
    if next = 0 then
      some none
    else
      match n with
      | 0 => none
      | n + 1 =>
        match (pagePtrs cap d next).find? (match_ d name) with
        | some ptr => some (some ptr)
        | none => findInOverflowPages d name n (d.pages next).next

/-- `_create_in_overflow`, with the areas for the database and for a new page. -/
def createInOverflow (d : Directory) (type : Nat) (name : Key) (area pageArea : Option Nat) :
    Answer Nat :=
  match findPlace cap d (fun p => min p.count cap.page) (maxPages d) d.dbNextPage 0 with
  | none => (d, .error .cyclic)
  | some (.hole ptr) =>
    match area with
    | none => (d, .error .storageFull)
    | some area => d.create ptr type name (some area)
  | some (.room page) =>
    match area with
    | none => (d, .error .storageFull)
    | some area =>
      (d.extendPage page).create (.overflow page (d.pages page).count) type name (some area)
  | some (.none last) =>
    match pageArea with
    | none => (d, .error .storageFull)
    | some pageArea =>
      let d := { d with fileSize := max d.fileSize (pageArea + AREA_SIZE) }
      match area with
      | none => (d, .error .storageFull)
      | some area =>
        let newOff := pageArea + AREA_HEADER_SIZE
        (d.appendPage last newOff).create (.overflow newOff 0) type name (some area)

/-- `open` -/
def openDB (d : Directory) (type : Nat) (name : Key) (area pageArea : Option Nat) : Answer Nat :=
  if 56 ≤ name.length then
    (d, .error .keyTooBig)
  else
    match d.opened name with
    | some slot => (d, if slot.typeId ≠ type then .error .typeMismatch else .ok slot.offset)
    | none =>
      match (firstPtrs cap d).find? (match_ d name) with
      | some ptr => d.openExisting type name (d.entry ptr).offset
      | none =>
        match findInOverflowPages cap d name (maxPages d) d.dbNextPage with
        | none => (d, .error .cyclic)
        | some (some ptr) => d.openExisting type name (d.entry ptr).offset
        | some none =>
          let hwm := min d.dbEntryCount cap.first
          match (firstPtrs cap d).find? fun ptr => (d.entry ptr).offset = 0 with
          | some free => d.create free type name area
          | none =>
            if hwm < cap.first then
              { d with dbEntryCount := hwm + 1 }.create (.first hwm) type name area
            else
              createInOverflow cap d type name area pageArea

/-- `_return_areas_at` and what follows it: the entry is free if the database has the type. -/
def removeAt (d : Directory) (type : Nat) (name : Key) (ptr : EntryPtr) : Answer Unit :=
  match d.opened name with
  | some slot =>
    if slot.typeId ≠ type then (d, .error .typeMismatch) else (d.freeEntry ptr name, .ok ())
  | none =>
    if d.dbTypeId (d.entry ptr).offset ≠ type then
      (d, .error .typeMismatch)
    else
      (d.freeEntry ptr name, .ok ())

/-- The search of `remove`: first among the entries in the header, then in the overflow pages. -/
def removeFound (d : Directory) (type : Nat) (name : Key) : Answer Unit :=
  match (firstPtrs cap d).find? (match_ d name) with
  | some ptr => removeAt d type name ptr
  | none =>
    match findInOverflowPages cap d name (maxPages d) d.dbNextPage with
    | none => (d, .error .cyclic)
    | some (some ptr) => removeAt d type name ptr
    | some none => (d, .error .notExisting)

/-- `remove` -/
def removeDB (d : Directory) (type : Nat) (name : Key) (active : Bool) : Answer Unit :=
  match d.opened name with
  | some slot =>
    if slot.typeId ≠ type then
      (d, .error .typeMismatch)
    else if active then
      (d, .error .transactionActive)
    else
      removeFound cap d type name
  | none => removeFound cap d type name

end Cache

end Directory
end Leaves
