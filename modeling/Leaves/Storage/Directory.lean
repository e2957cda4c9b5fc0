import Leaves.Core.Util
import Leaves.Lib.Linked
import Leaves.Memory.MemManager

/-!
The directory of the databases of a storage, `storage/_db_directory.hpp`: entries in the file header
and in a chain of overflow pages, and how they are visited.
-/

namespace Leaves

/-- `_DBDirectoryEntry`. The name is what stands before the first zero byte. -/
structure DBEntry where
  name : Key
  offset : Nat
  deriving DecidableEq, Repr

/-- `_DBDirectoryPage` -/
structure DirectoryPage where
  count : Nat
  next : Nat
  entries : Nat → DBEntry

/-- `_DBSlot`: a database that is open, with the offset of its header. -/
structure DBSlot where
  offset : Nat
  typeId : Nat
  deriving DecidableEq, Repr

/-- A pointer to an entry. -/
inductive EntryPtr where
  | first (i : Nat)
  | overflow (page i : Nat)
  deriving DecidableEq, Repr

/-- The numbers of entries that fit into the file header and into an overflow page. -/
structure Capacity where
  first : Nat
  page : Nat
  page_pos : 0 < page

/-- The fields of the file header, the overflow pages by their offsets, `db_type_id` in the headers
of the databases, and the open databases. -/
structure Directory where
  dbEntryCount : Nat
  dbNextPage : Nat
  dbs : Nat → DBEntry
  pages : Nat → DirectoryPage
  dbTypeId : Nat → Nat
  opened : Key → Option DBSlot
  fileSize : Nat

namespace Directory

/-- `memset` with zeros -/
def noEntries : Nat → DBEntry := fun _ => ⟨[], 0⟩

/-- The directory of a new file. -/
def init (fileSize : Nat) : Directory :=
  { dbEntryCount := 0, dbNextPage := 0, dbs := noEntries, pages := fun _ => ⟨0, 0, noEntries⟩,
    dbTypeId := fun _ => 0, opened := fun _ => none, fileSize }

def entry (d : Directory) : EntryPtr → DBEntry
  | .first i => d.dbs i
  | .overflow page i => (d.pages page).entries i

def setEntry (d : Directory) (ptr : EntryPtr) (e : DBEntry) : Directory :=
  match ptr with
  | .first i => { d with dbs := Function.update d.dbs i e }
  | .overflow page i =>
    let p := d.pages page
    let p := { p with entries := Function.update p.entries i e }
    { d with pages := Function.update d.pages page p }

/-- `strncpy(entry.name, name, sizeof(entry.name) - 1)` with a zero behind it. -/
def cstring (name : Key) : Key := (name.takeWhile (· ≠ 0)).take 55

/-- The loop over entries, which ends when `fn` returns false. -/
def visit {σ : Type} (fn : EntryPtr → σ → σ × Bool) : List EntryPtr → σ → σ × Bool
  | [], st => (st, true)
  | ptr :: ptrs, st =>
    let (st, go) := fn ptr st
    if go then visit fn ptrs st else (st, false)

section Walk

variable (cap : Capacity) (d : Directory)

def firstPtrs : List EntryPtr := (List.range (min d.dbEntryCount cap.first)).map EntryPtr.first

def pagePtrs (page : Nat) : List EntryPtr :=
  (List.range (min (d.pages page).count cap.page)).map (EntryPtr.overflow page)

/-- The loop over the overflow pages, at most `n` of them. -/
def walkPages {σ : Type} (fn : EntryPtr → σ → σ × Bool) : Nat → Nat → σ → Option σ
  | n, next, st =>
    if next = 0 then
      some st
    else
      match n with
      | 0 => none
      | n + 1 =>
        let (st, go) := visit fn (pagePtrs cap d next) st
        if go then walkPages fn n (d.pages next).next st else some st

/-- `_for_each_db_entry` -/
def forEachEntry {σ : Type} (maxPages : Nat) (fn : EntryPtr → σ → σ × Bool) (st : σ) : Option σ :=
  let (st, go) := visit fn (firstPtrs cap d) st
  if go then walkPages cap d fn maxPages d.dbNextPage st else some st

/-- `list_dbs` -/
def listDbs (maxPages : Nat) : Option (List Key) :=
  forEachEntry cap d maxPages (fun ptr names =>
    let e := d.entry ptr
    (if e.offset ≠ 0 then names ++ [e.name] else names, true)) []

/-- Where an overflow page has place: in a free entry, behind its entries, or nowhere. -/
inductive Place where
  | hole (ptr : EntryPtr)
  | room (page : Nat)
  | none (last : Nat)
  deriving DecidableEq, Repr

/-- The search for a place. `used` is the number of entries of a page that are looked at. -/
def findPlace (used : DirectoryPage → Nat) : Nat → Nat → Nat → Option Place
  | n, next, last =>
    if next = 0 then
      some (.none last)
    else
      match n with
      | 0 => .none
      | n + 1 =>
        let page := d.pages next
        match (List.range (used page)).find? fun i => (page.entries i).offset = 0 with
        | some i => some (.hole (.overflow next i))
        | .none =>
          if page.count < cap.page then some (.room next) else findPlace used n page.next next

/-- `page->count++`: the next entry of the page comes into use. -/
def extendPage (page : Nat) : Directory :=
  let p := d.pages page
  let p := { p with count := p.count + 1 }
  { d with pages := Function.update d.pages page p }

/-- A new page with one entry behind the last page. -/
def appendPage (last page : Nat) : Directory :=
  let pages := Function.update d.pages page ⟨1, 0, noEntries⟩
  if last = 0 then
    { d with pages, dbNextPage := page }
  else
    let p := { pages last with next := page }
    { d with pages := Function.update pages last p }

end Walk

/-- `new DB` at the entry, with the area that it gets. The name stands in the entry already, the
constructor sets the offset. -/
def newDB (d : Directory) (ptr : EntryPtr) (type : Nat) (name : Key) (area : Nat) : Directory :=
  let offset := area + AREA_HEADER_SIZE
  let d := d.setEntry ptr ⟨cstring name, offset⟩
  { d with
    dbTypeId := Function.update d.dbTypeId offset type,
    opened := Function.update d.opened name (some ⟨offset, type⟩),
    fileSize := max d.fileSize (area + AREA_SIZE) }

/-- An entry becomes free and the database is not open any more. -/
def freeEntry (d : Directory) (ptr : EntryPtr) (name : Key) : Directory :=
  let d := d.setEntry ptr { d.entry ptr with offset := 0 }
  { d with opened := Function.update d.opened name none }

/-- The storage is closed and opened again. -/
def reopen (d : Directory) : Directory := { d with opened := fun _ => none }

end Directory
end Leaves
