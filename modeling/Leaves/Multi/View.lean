import Leaves.Lib.Nearest
import Leaves.Multi.Tributary

/-!
Reading through the cursor of `multi/_confluence_db.hpp`: `find` resolves a key over the main
database and the tributaries, `first`, `next`, `last` and `prev` merge the cursors of the sources.
-/

namespace Leaves

open OrdMap

/-- The snapshot of a database a cursor reads from, the main database has no deleted keys. -/
structure Source where
  txnId : Nat
  tries : Tries
  ascending : Ascending tries.data

namespace Source

def data (s : Source) : List (Key × Value) := s.tries.data

def value (s : Source) (k : Key) : Value := (lookup s.data k).getD default

def found (s : Source) (k : Key) : Bool := s.tries.found k

def isDeleted (s : Source) (k : Key) : Bool := s.tries.isDeleted k

/-- What the source has for a key. -/
def candidate (s : Source) (k : Key) : Candidate := ⟨s.txnId, s.value k, s.isDeleted k⟩

end Source

/-- The cursor of a source, `pos` is its `current_key` as long as it is valid. -/
structure SourceCursor where
  source : Source
  pos : Option Key

namespace SourceCursor

def find (k : Key) (c : SourceCursor) : SourceCursor :=
  { c with pos := if c.source.found k then some k else none }

def first (c : SourceCursor) : SourceCursor := { c with pos := OrdMap.first c.source.data }

def last (c : SourceCursor) : SourceCursor := { c with pos := OrdMap.last c.source.data }

/-- `next` or `prev` if the cursor is at the key. -/
def moveFrom (move : List (Key × Value) → Key → Option Key) (k : Key) (c : SourceCursor) :
    SourceCursor :=
  if c.pos = some k then { c with pos := move c.source.data k } else c

end SourceCursor

/-- `_ConfluenceCursor`, its sources are the main database, the tributaries and the write source. -/
structure ConfluenceCursor where
  cursors : List SourceCursor
  searchKey : Key
  valueStorage : Value
  valid : Bool
  pendingFind : Bool

namespace ConfluenceCursor

def create (sources : List Source) : ConfluenceCursor :=
  ⟨sources.map fun s => ⟨s, none⟩, [], default, false, false⟩

def sources (c : ConfluenceCursor) : List Source := c.cursors.map (·.source)

section Aspect

variable (aspect : MergeAspect)

/-- `_resolve_key` -/
def resolveKey (c : ConfluenceCursor) (k : Key) : ConfluenceCursor × Option Candidate :=
  let cursors := c.cursors.map (SourceCursor.find k)
  let candidates := cursors.filter fun s => s.pos = some k || s.source.isDeleted k
  ({ c with cursors },
    Candidate.resolve aspect k (candidates.map fun s => s.source.candidate k))

/-- `_materialize_full` -/
def materializeFull (c : ConfluenceCursor) : ConfluenceCursor :=
  if c.pendingFind then
    match c.resolveKey aspect c.searchKey with
    | (c, some w) => { c with valueStorage := w.value, valid := true, pendingFind := false }
    | (c, none) => { c with valid := false, pendingFind := false }
  else c

def find (c : ConfluenceCursor) (k : Key) : ConfluenceCursor :=
  { c with searchKey := k, pendingFind := true, valid := false }

def foremost (r : Key → Key → Prop) [DecidableRel r] (front : Option Key) (c : SourceCursor) :
    Option Key :=
  match c.pos, front with
  | none, _ => front
  | some k, none => some k
  | some k, some k' => if r k k' then some k else some k'

/-- The foremost of the keys the cursors are at. -/
def frontKey (r : Key → Key → Prop) [DecidableRel r] (cursors : List SourceCursor) : Option Key :=
  cursors.foldl (foremost r) none

/-- The loop of `_advance_to_next_valid` and `_advance_to_prev_valid`. -/
def advance (r : Key → Key → Prop) [DecidableRel r] (move : List (Key × Value) → Key → Option Key) :
    Nat → ConfluenceCursor → Option ConfluenceCursor
  | 0, _ => none
  | fuel + 1, c =>
    match frontKey r c.cursors with
    | none => some { c with valid := false }
    | some k =>
      let candidates := c.cursors.filter fun s => s.pos = some k
      let c := { c with cursors := c.cursors.map (SourceCursor.moveFrom move k) }
      match Candidate.resolve aspect k (candidates.map fun s => s.source.candidate k) with
      | some w => some { c with searchKey := k, valueStorage := w.value, valid := true }
      | none => advance r move fuel c

/-- More rounds than entries are not needed. -/
def rounds (c : ConfluenceCursor) : Nat := (c.sources.map (·.data.length)).sum + 1

/-- `first` and `last` put all the cursors to the end of their source. -/
def startAt (r : Key → Key → Prop) [DecidableRel r] (move : List (Key × Value) → Key → Option Key)
    (front : SourceCursor → SourceCursor) (c : ConfluenceCursor) : Option ConfluenceCursor :=
  advance aspect r move c.rounds { c with cursors := c.cursors.map front, pendingFind := false }

/-- `next` and `prev` go on with the cursors that are at the key. -/
def stepFrom (r : Key → Key → Prop) [DecidableRel r] (move : List (Key × Value) → Key → Option Key)
    (c : ConfluenceCursor) : Option ConfluenceCursor :=
  let c := c.materializeFull aspect
  if !c.valid then some c
  else
    advance aspect r move c.rounds
      { c with cursors := c.cursors.map (SourceCursor.moveFrom move c.searchKey) }

def first (c : ConfluenceCursor) : Option ConfluenceCursor :=
  c.startAt aspect (· < ·) OrdMap.next SourceCursor.first

def next (c : ConfluenceCursor) : Option ConfluenceCursor := c.stepFrom aspect (· < ·) OrdMap.next

def last (c : ConfluenceCursor) : Option ConfluenceCursor :=
  c.startAt aspect (· > ·) OrdMap.prev SourceCursor.last

def prev (c : ConfluenceCursor) : Option ConfluenceCursor := c.stepFrom aspect (· > ·) OrdMap.prev

def step (c : ConfluenceCursor) : Move Key → Option ConfluenceCursor
  | .find k => some (c.find k)
  | .first => c.first aspect
  | .last => c.last aspect
  | .next => c.next aspect
  | .prev => c.prev aspect

def run (c : ConfluenceCursor) (moves : List (Move Key)) : Option ConfluenceCursor :=
  moves.foldlM (step aspect) c

/-- `is_valid`, `key` and `value` -/
def observe (c : ConfluenceCursor) : Option (Key × Value) :=
  let c := c.materializeFull aspect
  if c.valid then some (c.searchKey, c.valueStorage) else none

end Aspect

end ConfluenceCursor

namespace Source

variable (aspect : MergeAspect) (sources : List Source)

/-- What `find` says about a key. -/
def resolve (k : Key) : Option Value :=
  let candidates := sources.filter fun s => s.found k || s.isDeleted k
  (Candidate.resolve aspect k (candidates.map fun s => s.candidate k)).map (·.value)

def addKey (m : List (Key × Value)) (k : Key) : List (Key × Value) :=
  match resolve aspect sources k with
  | some v => OrdMap.insert m k v
  | none => m

/-- The map of all the keys `find` finds. -/
def view : List (Key × Value) :=
  (sources.flatMap (·.data)).foldl (fun m e => addKey aspect sources m e.1) []

end Source

/-- What a cursor over the map does: it is valid behind `find` only if the key is there. -/
def seek (m : List (Key × Value)) (pos : Option Key) : Move Key → Option Key
  | .find k => if Has m k then some k else none
  | move => OrdMap.step m pos move

end Leaves
