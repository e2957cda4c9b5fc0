import Leaves.Trie.Search

/-!
The cursor of `db/_cursor.hpp`: a stack of transitions from the root of a trie to the current node.
Reading a node is a function `rd` from its address; what is below the top of the stack is found
through the links of the nodes, as the stack itself holds the nodes.
-/

namespace Leaves

/-- The initial state of `cmp`. -/
def UNDEFINED : Int := 3

/-- A `link_idx` that is not set. -/
def NO_LINK : Nat := 0xFFFF

/-- `Traits::MAX_KEY_SIZE` -/
def MAX_KEY_SIZE : Nat := 1024 * 1024

/--
Every node but the root has at least one byte of the key, a suffix may be empty: no way down is
longer.
-/
def MAX_DEPTH : Nat := MAX_KEY_SIZE + 2

/--
`_Transition` without its `branch_key`: pushing a transition sets every other member, `branch_key`
stays what it was when the place on the stack was used before, so the cursor keeps it.
-/
structure Transition where
  node : Addr
  /-- count of equal chars in compressed node -/
  prefixLen : Nat
  /-- position inside the key -/
  keypos : Nat
  cmp : Int
  /-- the array index of the link in the trie node -/
  linkIdx : Nat
  deriving DecidableEq, Repr, Inhabited

structure Cursor where
  /-- `*_root`, null for an empty trie -/
  root : Addr
  /-- the innermost transition first -/
  stack : List Transition
  /-- the `branch_key` of every place on the stack, counted from the root -/
  branchKey : Nat → UInt8
  restKey : Key
  currentKey : Key
  deriving Inhabited

namespace Cursor

/-- A new cursor. -/
def init (root : Addr) : Cursor :=
  { root, stack := [], branchKey := fun _ => 0, restKey := [], currentKey := [] }

def setBranchKey (c : Cursor) (depth : Nat) (b : UInt8) : Cursor :=
  { c with branchKey := fun i => if i = depth then b else c.branchKey i }

def advanceKey (c : Cursor) (size : Nat) : Cursor :=
  { c with currentKey := c.currentKey ++ c.restKey.take size, restKey := c.restKey.drop size }

def appendKey (c : Cursor) (data : Key) : Cursor :=
  { c with currentKey := c.currentKey ++ data }

def resizeKey (c : Cursor) (size : Nat) : Cursor :=
  { c with currentKey := resize c.currentKey size }

def push (c : Cursor) (node : Addr) : Cursor :=
  { c with
    stack :=
      { node, prefixLen := 0, keypos := u16 c.currentKey.length, cmp := UNDEFINED,
        linkIdx := NO_LINK } :: c.stack }

def pop (c : Cursor) : Cursor :=
  match c.stack with
  | [] => c
  | f :: fs => { c.resizeKey f.keypos with stack := fs }

/-- `_Transition::find` at the top of the stack. -/
def findTop (rd : Addr → Node) : Nat → Cursor → Cursor
  | 0, c => c
  | fuel + 1, c =>
    match c.stack with
    | [] => c
    | f :: fs =>
      match rd f.node with
      | .leaf l =>
        let (pre, cmp) := getPrefix c.restKey l.key
        ({ c with stack := { f with prefixLen := pre, cmp } :: fs }).advanceKey pre
      | .trie t =>
        let (pre, cmp) := getPrefix c.restKey t.compressed
        let f := { f with prefixLen := pre, cmp }
        let c := ({ c with stack := f :: fs }).advanceKey pre
        if pre < t.len then
          c
        else
          match c.restKey with
          | [] =>
            if t.hasNone then
              findTop rd fuel (({ c with stack := { f with linkIdx := 0 } :: fs }).push (t.link 0))
            else
              { c with stack := { f with cmp := -1 } :: fs }
          | b :: _ =>
            let c := c.setBranchKey fs.length b
            match t.arrayIndex (some b) with
            | none => { c with stack := { f with cmp := NOT_FOUND } :: fs }
            | some idx =>
              findTop rd fuel
                (({ c with stack := { f with cmp := 0, linkIdx := idx } :: fs }).push (t.link idx))

/-- `_Transition::leaf_step` for the top transition `f` on the leaf `l`. -/
def leafStep (c : Cursor) (f : Transition) (fs : List Transition) (l : LeafNode) : Cursor :=
  { (c.resizeKey f.keypos).appendKey l.key with
    stack := { f with prefixLen := l.key.length, cmp := 0 } :: fs }

/-- `current_key()[pos]`, a string ends with a zero byte. -/
def charAt (c : Cursor) (pos : Nat) : UInt8 := (c.currentKey[pos]?).getD 0

/-- `_Transition::first` at the top of the stack. -/
def firstTop (rd : Addr → Node) : Nat → Cursor → Cursor
  | 0, c => c
  | fuel + 1, c =>
    match c.stack with
    | [] => c
    | f :: fs =>
      match rd f.node with
      | .leaf l => c.leafStep f fs l
      | .trie t =>
        let c :=
          { c.appendKey t.compressed with
            stack := { f with prefixLen := t.len, cmp := 0, linkIdx := 0 } :: fs }
        let keypos := u16 c.currentKey.length
        let c := firstTop rd fuel (c.push (t.link 0))
        if keypos < c.currentKey.length then c.setBranchKey fs.length (c.charAt keypos) else c

/-- `_Transition::last` at the top of the stack. -/
def lastTop (rd : Addr → Node) : Nat → Cursor → Cursor
  | 0, c => c
  | fuel + 1, c =>
    match c.stack with
    | [] => c
    | f :: fs =>
      match rd f.node with
      | .leaf l => c.leafStep f fs l
      | .trie t =>
        let c :=
          { c.appendKey t.compressed with
            stack := { f with prefixLen := t.len, cmp := 0, linkIdx := u16 (t.count - 1) } :: fs }
        let keypos := u16 c.currentKey.length
        let c := lastTop rd fuel (c.push (t.link (u16 (t.count - 1))))
        c.setBranchKey fs.length (c.charAt keypos)

/-- `_Transition::next` at the top of the stack. -/
def nextTop (rd : Addr → Node) (c : Cursor) : Bool × Cursor :=
  match c.stack with
  | [] => (false, c)
  | f :: fs =>
    match rd f.node with
    | .leaf l => if f.cmp < 0 then (true, c.leafStep f fs l) else (false, c)
    | .trie t =>
      if f.cmp = 0 then
        let f := { f with linkIdx := u16 (f.linkIdx + 1) }
        let c := { c with stack := f :: fs }
        if t.count ≤ f.linkIdx then
          (false, c)
        else
          let keypos := u16 c.currentKey.length
          let c := firstTop rd MAX_DEPTH (c.push (t.link f.linkIdx))
          (true, c.setBranchKey fs.length (c.charAt keypos))
      else
        let c := c.resizeKey f.keypos
        if f.prefixLen < t.len then
          if 0 < f.cmp then (false, c) else (true, firstTop rd MAX_DEPTH c)
        else
          let c := c.appendKey t.compressed
          match t.next (some (c.branchKey fs.length)) with
          | none => (false, c)
          | some key =>
            let idx := (t.arrayIndex key).getD 0
            let c :=
              { c.setBranchKey fs.length (key.getD 255) with
                stack := { f with cmp := 0, linkIdx := idx } :: fs }
            (true, firstTop rd MAX_DEPTH (c.push (t.link idx)))

/-- `_Transition::prev` at the top of the stack. -/
def prevTop (rd : Addr → Node) (c : Cursor) : Bool × Cursor :=
  match c.stack with
  | [] => (false, c)
  | f :: fs =>
    match rd f.node with
    | .leaf l => if 0 < f.cmp then (true, c.leafStep f fs l) else (false, c)
    | .trie t =>
      if f.cmp = 0 then
        if f.linkIdx = 0 then
          (false, { c with stack := { f with linkIdx := NO_LINK } :: fs })
        else
          let f := { f with linkIdx := f.linkIdx - 1 }
          let c := { c with stack := f :: fs }
          let keypos := u16 c.currentKey.length
          let c := lastTop rd MAX_DEPTH (c.push (t.link f.linkIdx))
          (true,
            if keypos < c.currentKey.length then c.setBranchKey fs.length (c.charAt keypos) else c)
      else
        let c := c.resizeKey f.keypos
        if f.prefixLen < t.len then
          if f.cmp < 0 then (false, c) else (true, lastTop rd MAX_DEPTH c)
        else
          let c := c.appendKey t.compressed
          match t.prev (some (c.branchKey fs.length)) with
          | none => (false, c)
          | some key =>
            let idx := (t.arrayIndex key).getD 0
            let c :=
              { c.setBranchKey fs.length (key.getD 255) with
                stack := { f with cmp := 0, linkIdx := idx } :: fs }
            (true, lastTop rd MAX_DEPTH (c.push (t.link idx)))

/-- `is_leaf() && cmp == 0` for the top of the stack -/
def isValid (rd : Addr → Node) (c : Cursor) : Bool :=
  match c.stack with
  | [] => false
  | f :: _ =>
    match rd f.node with
    | .leaf _ => f.cmp == 0
    | .trie _ => false

/-- The leaf a valid cursor is on. -/
def leaf? (rd : Addr → Node) (c : Cursor) : Option LeafNode :=
  match c.stack with
  | [] => none
  | f :: _ =>
    match rd f.node with
    | .leaf l => if f.cmp = 0 then some l else none
    | .trie _ => none

/--
`keep_stack`: start as deep in the stack as possible. The flag says that there is nothing left to
find.
-/
def keepStack (c : Cursor) : Bool × Cursor :=
  let same := (getPrefix c.restKey c.currentKey).1
  if same = c.restKey.length ∧ same = c.currentKey.length then
    (true, { c with restKey := c.restKey.drop same })
  else
    match c.stack.dropWhile (fun f => same ≤ f.keypos) with
    | [] => (false, { c with stack := [] })
    | back :: fs =>
      (false,
        { c.resizeKey back.keypos with
          stack := { back with prefixLen := 0, cmp := UNDEFINED } :: fs
          restKey := c.restKey.drop back.keypos })

/-- `_find` -/
def findRest (rd : Addr → Node) (c : Cursor) : Cursor :=
  if c.stack = [] then
    if c.root = 0 then c
    else findTop rd MAX_DEPTH ({ c with currentKey := [] }.push c.root)
  else
    findTop rd MAX_DEPTH c

/-- `find`, `none` stands for the exception `KeyTooBig`. -/
def find (rd : Addr → Node) (c : Cursor) (key : Key) : Option Cursor :=
  if MAX_KEY_SIZE < key.length then none
  else
    let c := { c with restKey := key }
    if c.stack = [] then some (findRest rd c)
    else
      match c.keepStack with
      | (true, c) => some c
      | (false, c) => some (findRest rd c)

/-- `clear`: back to the root of the trie. -/
def clear (c : Cursor) : Cursor :=
  let c := { c with stack := [], restKey := [], currentKey := [] }
  if c.root = 0 then c else c.push c.root

def first (rd : Addr → Node) (c : Cursor) : Cursor :=
  if c.root = 0 then c.clear else firstTop rd MAX_DEPTH c.clear

def last (rd : Addr → Node) (c : Cursor) : Cursor :=
  if c.root = 0 then c.clear else lastTop rd MAX_DEPTH c.clear

/-- The loop of `next`: go up until a transition has something behind it. -/
def nextLoop (rd : Addr → Node) : Nat → Cursor → Cursor
  | 0, c => c
  | n + 1, c =>
    if c.stack = [] then c
    else
      match nextTop rd c with
      | (true, c) => c
      | (false, c) => nextLoop rd n c.pop

def next (rd : Addr → Node) (c : Cursor) : Cursor :=
  nextLoop rd c.stack.length { c with restKey := [] }

def prevLoop (rd : Addr → Node) : Nat → Cursor → Cursor
  | 0, c => c
  | n + 1, c =>
    if c.stack = [] then c
    else
      match prevTop rd c with
      | (true, c) => c
      | (false, c) => prevLoop rd n c.pop

def prev (rd : Addr → Node) (c : Cursor) : Cursor :=
  prevLoop rd c.stack.length { c with restKey := [] }

end Cursor
end Leaves
