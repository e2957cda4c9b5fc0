import Leaves.Db.Cursor

/-!
The stack of a cursor against the path of the trie it stands for: what the operations of the cursor
do with the single members, and where a search leaves the stack.
-/

namespace Leaves
namespace Cursor

section Fields

variable (c : Cursor) (depth : Nat) (b : UInt8) (size : Nat) (data : Key) (a : Addr)

@[simp]
theorem root_setBranchKey : (c.setBranchKey depth b).root = c.root := rfl

@[simp]
theorem stack_setBranchKey : (c.setBranchKey depth b).stack = c.stack := rfl

@[simp]
theorem restKey_setBranchKey : (c.setBranchKey depth b).restKey = c.restKey := rfl

@[simp]
theorem currentKey_setBranchKey : (c.setBranchKey depth b).currentKey = c.currentKey := rfl

@[simp]
theorem branchKey_setBranchKey (i : Nat) :
    (c.setBranchKey depth b).branchKey i = if i = depth then b else c.branchKey i := rfl

@[simp]
theorem root_advanceKey : (c.advanceKey size).root = c.root := rfl

@[simp]
theorem stack_advanceKey : (c.advanceKey size).stack = c.stack := rfl

@[simp]
theorem branchKey_advanceKey : (c.advanceKey size).branchKey = c.branchKey := rfl

@[simp]
theorem restKey_advanceKey : (c.advanceKey size).restKey = c.restKey.drop size := rfl

@[simp]
theorem currentKey_advanceKey :
    (c.advanceKey size).currentKey = c.currentKey ++ c.restKey.take size := rfl

@[simp]
theorem root_appendKey : (c.appendKey data).root = c.root := rfl

@[simp]
theorem stack_appendKey : (c.appendKey data).stack = c.stack := rfl

@[simp]
theorem branchKey_appendKey : (c.appendKey data).branchKey = c.branchKey := rfl

@[simp]
theorem restKey_appendKey : (c.appendKey data).restKey = c.restKey := rfl

@[simp]
theorem currentKey_appendKey : (c.appendKey data).currentKey = c.currentKey ++ data := rfl

@[simp]
theorem root_resizeKey : (c.resizeKey size).root = c.root := rfl

@[simp]
theorem stack_resizeKey : (c.resizeKey size).stack = c.stack := rfl

@[simp]
theorem branchKey_resizeKey : (c.resizeKey size).branchKey = c.branchKey := rfl

@[simp]
theorem restKey_resizeKey : (c.resizeKey size).restKey = c.restKey := rfl

@[simp]
theorem currentKey_resizeKey : (c.resizeKey size).currentKey = resize c.currentKey size := rfl

@[simp]
theorem root_push : (c.push a).root = c.root := rfl

@[simp]
theorem stack_push :
    (c.push a).stack =
      { node := a, prefixLen := 0, keypos := u16 c.currentKey.length, cmp := UNDEFINED,
        linkIdx := NO_LINK } :: c.stack := rfl

@[simp]
theorem branchKey_push : (c.push a).branchKey = c.branchKey := rfl

@[simp]
theorem restKey_push : (c.push a).restKey = c.restKey := rfl

@[simp]
theorem currentKey_push : (c.push a).currentKey = c.currentKey := rfl

end Fields

/-- The transition of a step below the path `p`. -/
def taken (s : Step) (p : Path) : Transition :=
  { node := s.addr, prefixLen := s.compressed.length, keypos := u16 p.str.length, cmp := 0,
    linkIdx := s.left.length }

/-- The transitions of a path. -/
def frames : Path → List Transition
  | [] => []
  | s :: p => taken s p :: frames p

@[simp]
theorem frames_nil : frames [] = [] := rfl

@[simp]
theorem frames_cons (s : Step) (p : Path) : frames (s :: p) = taken s p :: frames p := rfl

@[simp]
theorem length_frames (p : Path) : (frames p).length = p.length := by
  induction p with
  | nil => rfl
  | cons s p ih => simp [ih]

/-- The branch keys of the transitions are those of the steps. -/
def Known (branchKey : Nat → UInt8) (p : Path) : Prop :=
  ∀ q s r b, p = q ++ s :: r → s.branch = some b → branchKey r.length = b

theorem known_nil (branchKey : Nat → UInt8) : Known branchKey [] := by
  intro q s r b h
  simp at h

theorem Known.tail {branchKey : Nat → UInt8} {s : Step} {p : Path}
    (h : Known branchKey (s :: p)) : Known branchKey p := by
  intro q s' r b hp
  exact h (s :: q) s' r b (by simp [hp])

theorem Known.drop {branchKey : Nat → UInt8} {q p : Path} (h : Known branchKey (q ++ p)) :
    Known branchKey p := by
  intro q' s r b hp
  exact h (q ++ q') s r b (by simp [hp])

/-- A branch key above the path does not matter. -/
theorem Known.set_of_le {c : Cursor} {p : Path} {depth : Nat} {b : UInt8}
    (h : Known c.branchKey p) (hle : p.length ≤ depth) : Known (c.setBranchKey depth b).branchKey p := by
  intro q s r b' hp hb
  have hr : r.length ≠ depth := by
    have := congrArg List.length hp
    simp only [List.length_append, List.length_cons] at this
    omega
  rw [branchKey_setBranchKey, if_neg hr]
  exact h q s r b' hp hb

theorem Known.cons {branchKey : Nat → UInt8} {s : Step} {p : Path} (h : Known branchKey p)
    (hs : ∀ b, s.branch = some b → branchKey p.length = b) : Known branchKey (s :: p) := by
  intro q s' r b hp hb
  match q with
  | [] =>
    rw [List.nil_append, List.cons.injEq] at hp
    obtain ⟨rfl, rfl⟩ := hp
    exact hs b hb
  | s'' :: q =>
    rw [List.cons_append, List.cons.injEq] at hp
    exact h q s' r b hp.2 hb

theorem known_singleton {branchKey : Nat → UInt8} {s : Step} :
    Known branchKey [s] ↔ ∀ b, s.branch = some b → branchKey 0 = b := by
  constructor
  . intro h b hb
    exact h [] s [] b rfl hb
  . intro h
    exact (known_nil branchKey).cons h

theorem known_append {branchKey : Nat → UInt8} {q p : Path} :
    Known branchKey (q ++ p) ↔ Known branchKey p ∧ Known (fun i => branchKey (p.length + i)) q := by
  constructor
  . intro h
    refine ⟨h.drop, ?_⟩
    intro q' s r b hq hb
    have := h q' s (r ++ p) b (by simp [hq]) hb
    rwa [List.length_append, Nat.add_comm] at this
  . rintro ⟨hp, hq⟩
    induction q with
    | nil => exact hp
    | cons s q ih =>
      rw [List.cons_append]
      refine (ih hq.tail).cons ?_
      intro b hb
      have := hq [] s q b rfl hb
      rwa [List.length_append, Nat.add_comm]

/-- The cursor has just come to a node. -/
structure Arrives (c : Cursor) (p : Path) (u : Tree) : Prop where
  stack : ∃ f, c.stack = f :: frames p ∧ f.node = u.addr ∧ f.keypos = u16 p.str.length
  currentKey : c.currentKey = p.str

/-- The cursor has come to a node and knows the branches it has taken. -/
structure Enters (c : Cursor) (p : Path) (u : Tree) : Prop extends Arrives c p u where
  known : Known c.branchKey p

/-- The cursor is where a search has ended. -/
structure Stopped (c : Cursor) (s : Stop) : Prop where
  stack : ∃ idx, c.stack =
    { node := s.tree.addr, prefixLen := s.prefixLen, keypos := u16 s.path.str.length, cmp := s.cmp,
      linkIdx := idx } :: frames s.path
  restKey : c.restKey = s.rest
  currentKey : c.currentKey = s.path.str ++ s.tree.label.take s.prefixLen
  known : Known c.branchKey s.path
  missing : ∀ b w, s.cmp = NOT_FOUND → s.rest = b :: w → c.branchKey s.path.length = b

/-- Pushing a child after its branch has been stored in the transition above it. -/
theorem push_arrives {c : Cursor} {p : Path} {u : Tree} (hstack : c.stack = frames p)
    (hkey : c.currentKey = p.str) : (c.push u.addr).Arrives p u := by
  refine ⟨⟨⟨u.addr, 0, u16 c.currentKey.length, UNDEFINED, NO_LINK⟩, ?_, rfl, ?_⟩, hkey⟩
  . rw [stack_push, hstack]
  . rw [hkey]

theorem push_enters {c : Cursor} {p : Path} {u : Tree} (hstack : c.stack = frames p)
    (hkey : c.currentKey = p.str) (hknown : Known c.branchKey p) : (c.push u.addr).Enters p u :=
  ⟨push_arrives hstack hkey, hknown⟩

section Node

variable {rd : Addr → Node} {a : Addr} {k : Key}

theorem rd_leaf {v : Value} (h : Tree.Stored rd (.leaf a k v)) :
    rd a = .leaf ⟨k, v.big, v.bytes⟩ := h.root

theorem rd_node {arr : List (Branch × Tree)} (h : Tree.Stored rd (.node a k arr)) :
    rd a = .trie ⟨k, Branches.mapSnd Tree.addr arr⟩ := h.root

end Node

/-- The link behind the branches in front of it. -/
theorem link_append_cons {c : Key} {l r : List (Branch × Tree)} {x : Branch × Tree} :
    TrieNode.link ⟨c, Branches.mapSnd Tree.addr (l ++ x :: r)⟩ l.length = x.2.addr := by
  have h : (Branches.mapSnd Tree.addr l).length = l.length := by simp
  rw [TrieNode.link, Branches.mapSnd_append, Branches.mapSnd_cons, ← h,
    List.getElem?_append_right (Nat.le_refl _)]
  simp

/-- `NONE` is the first branch. -/
theorem left_eq_nil {l r : List (Branch × Tree)} {x : Tree}
    (h : Branches.Sorted (l ++ (none, x) :: r)) : l = [] := by
  match l with
  | [] => rfl
  | y :: l =>
    have := (Branches.sorted_append_cons.mp h).2.2.1 y (by simp)
    match hy : y.1 with
    | none => simp [hy] at this
    | some b =>
      simp only [hy, Branch.toInt_some, Branch.toInt_none] at this
      omega

end Cursor
end Leaves
