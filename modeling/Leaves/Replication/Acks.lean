import Mathlib.Data.Nat.Bitwise
import Leaves.Replication.Transfer

/-!
The codec of the acknowledged paths, the REQUEST_CHILDREN message of `replication/_transfer.hpp`.
The length of a path and the flag of a leaf share 16 bits, a path of odd length is padded.
-/

namespace Leaves

/-- `REQUEST_CHILDREN_MAGIC` -/
def REQUEST_CHILDREN_MAGIC : Nat := 0x4C565352

structure RequestChildrenHeader where
  magic : Nat
  sessionId : Nat
  dbType : UInt8
  pathCount : Nat
  deriving DecidableEq, Repr

namespace RequestChildrenHeader

/-- `sizeof(RequestChildrenHeader)` -/
def SIZE : Nat := 17

def bytes (h : RequestChildrenHeader) : List UInt8 :=
  toLittle 4 h.magic ++ (toLittle 8 h.sessionId ++ (h.dbType :: toLittle 4 h.pathCount))

def isValid (h : RequestChildrenHeader) : Bool := h.magic = REQUEST_CHILDREN_MAGIC

end RequestChildrenHeader

/-- The buffer as the header, which is changed in place, and what is behind it. -/
structure RequestChildrenBuilder where
  header : RequestChildrenHeader
  buffer : List UInt8

namespace RequestChildrenBuilder

/-- The byte behind the header aligns the first length. -/
def begin (sessionId : Nat) (dbType : UInt8) : RequestChildrenBuilder :=
  ⟨⟨REQUEST_CHILDREN_MAGIC, sessionId, dbType, 0⟩, [0]⟩

/-- The length in 16 bits, the highest one is the flag of a leaf. -/
def rawLen (path : Key) (isLeaf : Bool) : Nat :=
  if isLeaf then path.length % 2 ^ 16 ||| 0x8000 else path.length % 2 ^ 16

def padding (path : Key) : List UInt8 := if path.length % 2 = 1 then [0] else []

def addPath (b : RequestChildrenBuilder) (path : Key) (isLeaf : Bool) : RequestChildrenBuilder :=
  { header := { b.header with pathCount := (b.header.pathCount + 1) % 2 ^ 32 },
    buffer := b.buffer ++ (toLittle 2 (rawLen path isLeaf) ++ (path ++ padding path)) }

def finalize (b : RequestChildrenBuilder) : List UInt8 := b.header.bytes ++ b.buffer

/-- The message with these paths. -/
def build (sessionId : Nat) (dbType : UInt8) (paths : List (Key × Bool)) : List UInt8 :=
  (paths.foldl (fun b p => b.addPath p.1 p.2) (begin sessionId dbType)).finalize

end RequestChildrenBuilder

structure RequestChildrenIterator where
  current : Nat
  error : Bool
  deriving DecidableEq, Repr

/-- What the loop body of `_is_pruned_by_ack` sees of an entry. -/
structure AckedPath where
  offset : Nat
  path : Key
  isLeaf : Bool
  deriving DecidableEq, Repr

namespace RequestChildrenIterator

variable (data : List UInt8)

def valid (it : RequestChildrenIterator) : Bool := !it.error && it.current + 2 ≤ data.length

def rawPathLen (it : RequestChildrenIterator) : Nat := ofLittle ((data.drop it.current).take 2)

def pathLen (it : RequestChildrenIterator) : Nat := it.rawPathLen data &&& 0x7FFF

def isLeaf (it : RequestChildrenIterator) : Bool := it.rawPathLen data &&& 0x8000 != 0

/-- An empty slice where the path would end outside of the message. -/
def path (it : RequestChildrenIterator) : Key :=
  if data.length < it.current + 2 + it.pathLen data then []
  else (data.drop (it.current + 2)).take (it.pathLen data)

def next (it : RequestChildrenIterator) : RequestChildrenIterator :=
  let advance := 2 + it.pathLen data + (if it.pathLen data % 2 = 1 then 1 else 0)
  if data.length < it.current + advance then { it with error := true }
  else { it with current := it.current + advance }

/-- The loop `while (iter.valid())`, `none` if it has not ended after that many rounds. -/
def visits : Nat → RequestChildrenIterator → Option (List AckedPath)
  | 0, it => if it.valid data then none else some []
  | n + 1, it =>
    if it.valid data then
      (visits n (it.next data)).map (⟨it.current, it.path data, it.isLeaf data⟩ :: ·)
    else
      some []

end RequestChildrenIterator

/-- `request_children_iterator`: what is behind the header and its padding. -/
def requestChildrenData (message : List UInt8) : List UInt8 :=
  message.drop (RequestChildrenHeader.SIZE + 1)

/-- The entries that are iterated over. -/
def ackedPaths (message : List UInt8) : Option (List AckedPath) :=
  RequestChildrenIterator.visits (requestChildrenData message) message.length ⟨0, false⟩

/-- `process_ack` for the big values: those of which the path is acknowledged are dropped. -/
def processBigAck (acks : List (Key × Bool)) (bigValues : List Key) : List Key :=
  bigValues.filter fun path => !TransferTrieSender.isPrunedByAck acks path true

/-- The 16 bits of an entry. -/
def ackField (path : Key) (isLeaf : Bool) : List UInt8 :=
  toLittle 2 (RequestChildrenBuilder.rawLen path isLeaf)

/-- The entry stands in the message where it has been found. -/
def AckedPath.InMessage (v : AckedPath) (data : List UInt8) : Prop :=
  v.path.length < 2 ^ 15 ∧ ∃ pre post, data = pre ++ (ackField v.path v.isLeaf ++ (v.path ++ post)) ∧
    pre.length = v.offset

/-- Whole entries, behind which are at most one byte or an entry that lacks only its padding. -/
inductive WholeEntries : List UInt8 → Prop where
  | short {rest : List UInt8} : rest.length < 2 → WholeEntries rest
  | unpadded {path : Key} {isLeaf : Bool} : path.length < 2 ^ 15 → path.length % 2 = 1 →
    WholeEntries (ackField path isLeaf ++ path)
  | entry {path : Key} {isLeaf : Bool} {pad rest : List UInt8} : path.length < 2 ^ 15 →
    pad.length = path.length % 2 → WholeEntries rest →
    WholeEntries (ackField path isLeaf ++ (path ++ (pad ++ rest)))

theorem rawLen_eq {path : Key} {isLeaf : Bool} (h : path.length < 2 ^ 15) :
    RequestChildrenBuilder.rawLen path isLeaf = path.length + if isLeaf then 2 ^ 15 else 0 := by
  unfold RequestChildrenBuilder.rawLen
  rw [Nat.mod_eq_of_lt (by omega)]
  cases isLeaf with
  | false => rfl
  | true =>
    have hor : 2 ^ 15 * 1 + path.length = 2 ^ 15 * 1 ||| path.length :=
      Nat.two_pow_add_eq_or_of_lt h 1
    rw [if_pos rfl, if_pos rfl, Nat.or_comm, Nat.add_comm]
    exact hor.symm

theorem pathLen_and (x : Nat) : x &&& 0x7FFF = x % 2 ^ 15 := Nat.and_two_pow_sub_one_eq_mod x 15

theorem isLeaf_and {x : Nat} (h : x < 2 ^ 16) : (x &&& 0x8000 != 0) = decide (2 ^ 15 ≤ x) := by
  have hand : x &&& 0x8000 = (x.testBit 15).toNat * 2 ^ 15 := Nat.and_two_pow x 15
  have hbit : x.testBit 15 = decide (2 ^ 15 ≤ x) := by
    rw [Nat.testBit_eq_decide_div_mod_eq, decide_eq_decide]
    omega
  rw [hand, hbit]
  cases decide (2 ^ 15 ≤ x) <;> rfl

theorem length_ackField (path : Key) (isLeaf : Bool) : (ackField path isLeaf).length = 2 :=
  length_toLittle 2 _

theorem ofLittle_ackField {path : Key} {isLeaf : Bool} (h : path.length < 2 ^ 15) :
    ofLittle (ackField path isLeaf) = path.length + if isLeaf then 2 ^ 15 else 0 := by
  rw [ackField, ofLittle_toLittle, rawLen_eq h, Nat.mod_eq_of_lt]
  split <;> omega

theorem ackField_congr {path path' : Key} (isLeaf : Bool) (h : path.length = path'.length) :
    ackField path isLeaf = ackField path' isLeaf := by
  rw [ackField, ackField, RequestChildrenBuilder.rawLen, RequestChildrenBuilder.rawLen, h]

/-- Any two bytes are those of a length and a flag. -/
theorem exists_ackField (b0 b1 : UInt8) :
    ∃ path isLeaf, path.length < 2 ^ 15 ∧ [b0, b1] = ackField path isLeaf := by
  have h0 := b0.toNat_lt
  have h1 := b1.toNat_lt
  generalize hx : b0.toNat + 256 * b1.toNat = x
  have hlen : (List.replicate (x % 2 ^ 15) (0 : UInt8)).length = x % 2 ^ 15 := List.length_replicate
  refine ⟨List.replicate (x % 2 ^ 15) 0, decide (2 ^ 15 ≤ x), by omega, ?_⟩
  have hsum : x % 2 ^ 15 + (if decide (2 ^ 15 ≤ x) = true then 2 ^ 15 else 0) = x := by
    simp only [decide_eq_true_eq]
    split <;> omega
  rw [ackField, rawLen_eq (by omega), hlen, hsum, toLittle, toLittle, toLittle]
  congr 1
  . apply UInt8.toNat_inj.mp
    rw [UInt8.toNat_ofNat']
    omega
  . congr 1
    apply UInt8.toNat_inj.mp
    rw [UInt8.toNat_ofNat']
    omega

/-- The length an entry has in its field. -/
def fieldLen (body : List UInt8) : Nat := ofLittle (body.take 2) % 2 ^ 15

theorem fieldLen_entry {path : Key} {isLeaf : Bool} {rest : List UInt8} (h : path.length < 2 ^ 15) :
    fieldLen (ackField path isLeaf ++ rest) = path.length := by
  rw [fieldLen, List.take_append_of_le_length (length_ackField path isLeaf).ge,
    List.take_of_length_le (length_ackField path isLeaf).le, ofLittle_ackField h]
  split <;> omega

theorem WholeEntries.fieldLen_le {body : List UInt8} (h : WholeEntries body)
    (hlen : 2 ≤ body.length) : fieldLen body + 2 ≤ body.length := by
  cases h with
  | short hshort => omega
  | unpadded hpath =>
    rw [fieldLen_entry hpath, List.length_append, length_ackField]
    omega
  | entry hpath =>
    rw [fieldLen_entry hpath, List.length_append, List.length_append, length_ackField]
    omega

/-- What is behind a whole entry. -/
theorem WholeEntries.behind {path : Key} {isLeaf : Bool} {pad rest : List UInt8}
    (h : WholeEntries (ackField path isLeaf ++ (path ++ (pad ++ rest))))
    (hpath : path.length < 2 ^ 15) (hpad : pad.length = path.length % 2) : WholeEntries rest := by
  have hfield : fieldLen (ackField path isLeaf ++ (path ++ (pad ++ rest))) = path.length :=
    fieldLen_entry hpath
  generalize hbody : ackField path isLeaf ++ (path ++ (pad ++ rest)) = body at h hfield
  cases h with
  | short hshort =>
    rw [← hbody, List.length_append, length_ackField] at hshort
    omega
  | @unpadded path' isLeaf' hpath' hodd =>
    rw [fieldLen_entry hpath'] at hfield
    have hlen := congrArg List.length hbody
    simp only [List.length_append, length_ackField] at hlen
    omega
  | @entry path' isLeaf' pad' rest' hpath' hpad' hrest =>
    rw [fieldLen_entry hpath'] at hfield
    have hbody' := (List.append_inj hbody (by rw [length_ackField, length_ackField])).2
    have hpads := (List.append_inj hbody' hfield.symm).2
    have hrests := (List.append_inj hpads (by omega)).2
    rw [hrests]
    exact hrest

namespace RequestChildrenIterator

variable {data pre tail body : List UInt8} {path pad : Key} {leaf : Bool} {n : Nat}

/-- An iterator in front of the field of an entry. -/
theorem at_field (hdata : data = pre ++ (ackField path leaf ++ tail)) (h : path.length < 2 ^ 15) :
    valid data ⟨pre.length, false⟩ = true ∧ pathLen data ⟨pre.length, false⟩ = path.length ∧
      isLeaf data ⟨pre.length, false⟩ = leaf ∧ data.length = pre.length + 2 + tail.length ∧
      data.drop (pre.length + 2) = tail := by
  have hfield := length_ackField path leaf
  have hraw : rawPathLen data ⟨pre.length, false⟩ = path.length + if leaf then 2 ^ 15 else 0 := by
    rw [rawPathLen, hdata, List.drop_left, List.take_append_of_le_length hfield.ge,
      List.take_of_length_le hfield.le, ofLittle_ackField h]
  have hlen : data.length = pre.length + 2 + tail.length := by
    rw [hdata]
    simp only [List.length_append, hfield]
    omega
  refine ⟨?_, ?_, ?_, hlen, ?_⟩
  . simp only [valid, Bool.not_false, Bool.true_and, decide_eq_true_eq]
    omega
  . rw [pathLen, hraw, pathLen_and]
    split <;> omega
  . rw [isLeaf, hraw, isLeaf_and (by split <;> omega)]
    cases leaf with
    | false => exact decide_eq_false (by simp only [Bool.false_eq_true, if_false]; omega)
    | true => exact decide_eq_true (by simp only [if_true]; omega)
  . rw [hdata, ← List.drop_drop, List.drop_left, ← hfield, List.drop_left]

theorem visits_invalid {it : RequestChildrenIterator} (h : it.valid data = false) :
    visits data n it = some [] := by
  cases n <;> simp [visits, h]

theorem visits_valid {it : RequestChildrenIterator} (h : it.valid data = true) :
    visits data (n + 1) it =
      (visits data n (it.next data)).map (⟨it.current, it.path data, it.isLeaf data⟩ :: ·) := by
  rw [visits, if_pos h]

/-- A path that would end outside of the message is seen as an empty one, then the loop ends. -/
theorem visits_overrun (hdata : data = pre ++ (ackField path leaf ++ tail))
    (h : path.length < 2 ^ 15) (hover : tail.length < path.length) :
    visits data (n + 1) ⟨pre.length, false⟩ = some [⟨pre.length, [], leaf⟩] := by
  obtain ⟨hvalid, hpathLen, hleaf, hlen, -⟩ := at_field hdata h
  have hpath : RequestChildrenIterator.path data ⟨pre.length, false⟩ = [] := by
    rw [RequestChildrenIterator.path, hpathLen, if_pos (by dsimp only; omega)]
  have hnext : next data ⟨pre.length, false⟩ = ⟨pre.length, true⟩ := by
    rw [next, hpathLen, if_pos (by dsimp only; omega)]
  rw [visits_valid hvalid, hnext, visits_invalid (by rfl), hpath, hleaf]
  rfl

theorem path_eq (hdata : data = pre ++ (ackField path leaf ++ (path ++ tail)))
    (h : path.length < 2 ^ 15) :
    RequestChildrenIterator.path data ⟨pre.length, false⟩ = path := by
  obtain ⟨-, hpathLen, -, hlen, hdrop⟩ := at_field hdata h
  rw [List.length_append] at hlen
  rw [RequestChildrenIterator.path, hpathLen, if_neg (by dsimp only; omega), hdrop, List.take_left]

/-- The loop also ends where only the padding is missing. -/
theorem visits_unpadded (hdata : data = pre ++ (ackField path leaf ++ path))
    (h : path.length < 2 ^ 15) (hodd : path.length % 2 = 1) :
    visits data (n + 1) ⟨pre.length, false⟩ = some [⟨pre.length, path, leaf⟩] := by
  obtain ⟨hvalid, hpathLen, hleaf, hlen, -⟩ := at_field hdata h
  have hdata' : data = pre ++ (ackField path leaf ++ (path ++ [])) := by
    rw [hdata, List.append_nil]
  have hpath := path_eq hdata' h
  have hnext : next data ⟨pre.length, false⟩ = ⟨pre.length, true⟩ := by
    rw [next, hpathLen, if_pos hodd, if_pos (by dsimp only; omega)]
  rw [visits_valid hvalid, hnext, visits_invalid (by rfl), hpath, hleaf]
  rfl

theorem visits_entry (hdata : data = pre ++ (ackField path leaf ++ (path ++ (pad ++ tail))))
    (h : path.length < 2 ^ 15) (hpad : pad.length = path.length % 2) :
    visits data (n + 1) ⟨pre.length, false⟩ =
      (visits data n ⟨(pre ++ (ackField path leaf ++ (path ++ pad))).length, false⟩).map
        (⟨pre.length, path, leaf⟩ :: ·) := by
  obtain ⟨hvalid, hpathLen, hleaf, hlen, -⟩ := at_field hdata h
  have hpath := path_eq hdata h
  have hnext : next data ⟨pre.length, false⟩ =
      ⟨(pre ++ (ackField path leaf ++ (path ++ pad))).length, false⟩ := by
    have hadd : (if path.length % 2 = 1 then 1 else 0) = path.length % 2 := by
      split <;> omega
    simp only [List.length_append] at hlen
    rw [next, hpathLen, hadd, if_neg (by dsimp only; omega)]
    simp only [List.length_append, length_ackField, hpad]
    congr 1
    omega
  rw [visits_valid hvalid, hnext, hpath, hleaf]

/-- The loop ends, and what it has seen stands in the message if this consists of whole entries. -/
theorem visits_spec (hn : body.length ≤ n) (hdata : data = pre ++ body) :
    ∃ vs, visits data n ⟨pre.length, false⟩ = some vs ∧
      ((∀ v ∈ vs, v.InMessage data) ↔ WholeEntries body) := by
  induction n generalizing pre body with
  | zero =>
    have hnil : body = [] := List.length_eq_zero_iff.mp (by omega)
    subst hnil
    refine ⟨[], visits_invalid ?_, by simpa using WholeEntries.short (by simp)⟩
    simp [valid, hdata]
  | succ n ih =>
    match body with
    | [] =>
      refine ⟨[], visits_invalid ?_, by simpa using WholeEntries.short (by simp)⟩
      simp [valid, hdata]
    | [b0] =>
      refine ⟨[], visits_invalid ?_, by simpa using WholeEntries.short (by simp)⟩
      simp [valid, hdata]
    | b0 :: b1 :: tail =>
      obtain ⟨q, leaf, hq, hfield⟩ := exists_ackField b0 b1
      have hbody : b0 :: b1 :: tail = ackField q leaf ++ tail := by
        rw [← hfield]
        rfl
      rw [hbody] at hdata ⊢
      by_cases hover : tail.length < q.length
      . refine ⟨_, visits_overrun hdata hq hover, ?_⟩
        constructor
        . intro hall
          exfalso
          obtain ⟨-, pre', post, heq, hpre⟩ := hall _ List.mem_cons_self
          rw [hdata] at heq
          have hsame := congrArg fieldLen (List.append_inj heq hpre.symm).2
          rw [fieldLen_entry hq, fieldLen_entry (by simp)] at hsame
          simp only [List.length_nil] at hsame
          omega
        . intro hwhole
          have hle := hwhole.fieldLen_le (by rw [List.length_append, length_ackField]; omega)
          rw [fieldLen_entry hq, List.length_append, length_ackField] at hle
          omega
      . -- the path is in the message
        have htake : (tail.take q.length).length = q.length := by
          rw [List.length_take]
          omega
        rw [ackField_congr leaf htake.symm] at hdata ⊢
        have hsplit := List.take_append_drop q.length tail
        generalize tail.take q.length = path at hsplit htake hdata ⊢
        generalize tail.drop q.length = behind at hsplit
        subst hsplit
        have hpath : path.length < 2 ^ 15 := by omega
        have hin : AckedPath.InMessage ⟨pre.length, path, leaf⟩ data :=
          ⟨hpath, pre, behind, hdata, rfl⟩
        by_cases hpad : behind.length < path.length % 2
        . have hnil : behind = [] := List.length_eq_zero_iff.mp (by omega)
          subst hnil
          rw [List.append_nil] at hdata ⊢
          have hodd : path.length % 2 = 1 := by
            rw [List.length_nil] at hpad
            omega
          refine ⟨_, visits_unpadded hdata hpath hodd, ?_⟩
          simpa [hin] using WholeEntries.unpadded hpath hodd
        . have hpads : (behind.take (path.length % 2)).length = path.length % 2 := by
            rw [List.length_take]
            omega
          have hrest := List.take_append_drop (path.length % 2) behind
          generalize behind.take (path.length % 2) = pad at hpads hrest
          generalize behind.drop (path.length % 2) = rest at hrest
          subst hrest
          rw [visits_entry hdata hpath hpads]
          have hle : rest.length ≤ n := by
            have hlen := congrArg List.length hbody
            simp only [List.length_append, List.length_cons, length_ackField] at hn hlen
            omega
          have hbehind : data = (pre ++ (ackField path leaf ++ (path ++ pad))) ++ rest := by
            rw [hdata]
            simp only [List.append_assoc]
          obtain ⟨vs, hvs, hiff⟩ := ih hle hbehind
          rw [hvs]
          refine ⟨_, rfl, ?_⟩
          constructor
          . intro hall
            exact WholeEntries.entry hpath hpads
              (hiff.mp fun v hv => hall v (List.mem_cons_of_mem _ hv))
          . intro hwhole v hv
            rcases List.mem_cons.mp hv with rfl | hv
            . exact hin
            . exact hiff.mpr (hwhole.behind hpath hpads) v hv

/-- What is seen of a list of entries the builder has written. -/
theorem visits_build {paths : List (Key × Bool)} (hpaths : ∀ p ∈ paths, p.1.length < 2 ^ 15)
    (hn : paths.length ≤ n)
    (hdata : data = pre ++ paths.flatMap fun p =>
      ackField p.1 p.2 ++ (p.1 ++ RequestChildrenBuilder.padding p.1)) :
    ∃ vs, visits data n ⟨pre.length, false⟩ = some vs ∧
      vs.map (fun v => (v.path, v.isLeaf)) = paths := by
  induction paths generalizing n pre with
  | nil =>
    refine ⟨[], visits_invalid ?_, rfl⟩
    simp [valid, hdata]
  | cons p paths ih =>
    match n with
    | n + 1 =>
      have hlen := hpaths p List.mem_cons_self
      have hpad : (RequestChildrenBuilder.padding p.1).length = p.1.length % 2 := by
        unfold RequestChildrenBuilder.padding
        split
        . rw [List.length_singleton]
          omega
        . rw [List.length_nil]
          omega
      rw [List.flatMap_cons] at hdata
      obtain ⟨vs, hvs, hmap⟩ := ih (fun q hq => hpaths q (List.mem_cons_of_mem p hq))
        (Nat.le_of_succ_le_succ hn)
        (by rw [hdata, ← List.append_assoc])
      simp only [List.append_assoc] at hdata
      rw [visits_entry hdata hlen hpad, hvs]
      refine ⟨_, rfl, ?_⟩
      rw [List.map_cons, hmap]

/-- No path that is seen is longer than the field can say. -/
theorem length_path_lt {vs : List AckedPath} {it : RequestChildrenIterator}
    (h : visits data n it = some vs) : ∀ v ∈ vs, v.path.length < 2 ^ 15 := by
  induction n generalizing it vs with
  | zero =>
    rw [visits] at h
    split at h
    . cases h
    . cases h
      simp
  | succ n ih =>
    rw [visits] at h
    split at h
    next =>
      rw [Option.map_eq_some_iff] at h
      obtain ⟨vs', hvs', rfl⟩ := h
      intro v hv
      rcases List.mem_cons.mp hv with rfl | hv
      . dsimp only
        unfold RequestChildrenIterator.path
        split
        . simp
        . rw [List.length_take, pathLen, pathLen_and]
          omega
      . exact ih hvs' v hv
    next =>
      cases h
      simp

end RequestChildrenIterator

theorem length_ackHeader (h : RequestChildrenHeader) : h.bytes.length = RequestChildrenHeader.SIZE := by
  unfold RequestChildrenHeader.bytes RequestChildrenHeader.SIZE
  simp only [List.length_append, List.length_cons, length_toLittle]

theorem requestChildrenData_build (sessionId : Nat) (dbType : UInt8) (paths : List (Key × Bool)) :
    requestChildrenData (RequestChildrenBuilder.build sessionId dbType paths) =
      paths.flatMap fun p => ackField p.1 p.2 ++ (p.1 ++ RequestChildrenBuilder.padding p.1) := by
  have hfold : ∀ (b : RequestChildrenBuilder) (ps : List (Key × Bool)),
      (ps.foldl (fun b p => b.addPath p.1 p.2) b).buffer = b.buffer ++
        ps.flatMap fun p => ackField p.1 p.2 ++ (p.1 ++ RequestChildrenBuilder.padding p.1) := by
    intro b ps
    induction ps generalizing b with
    | nil => simp
    | cons p ps ih =>
      rw [List.foldl_cons, ih, List.flatMap_cons]
      simp only [RequestChildrenBuilder.addPath, ackField, List.append_assoc]
  unfold requestChildrenData RequestChildrenBuilder.build RequestChildrenBuilder.finalize
  rw [hfold]
  simp only [RequestChildrenBuilder.begin]
  rw [← List.drop_drop, ← length_ackHeader, List.drop_left]
  rfl

/-- What a message with acknowledged paths means to `process_ack`: the iteration ends, what it
yields stands in the message, and a node or a big value is dropped only for a path that does. -/
def SoundAcks (message : List UInt8) : Prop :=
  ∃ vs, ackedPaths message = some vs ∧
    (∀ v ∈ vs, v.InMessage (requestChildrenData message)) ∧
    (∀ (s : TransferTrieSender), ∀ p ∈ s.lastBatch,
      p ∉ (s.processAck (vs.map fun v => (v.path, v.isLeaf))).pending →
        ∃ v ∈ vs, v.InMessage (requestChildrenData message) ∧ v.isLeaf = false ∧ v.path <+: p.path) ∧
    ∀ (bigValues : List Key), ∀ path ∈ bigValues,
      path ∉ processBigAck (vs.map fun v => (v.path, v.isLeaf)) bigValues →
        ∃ v ∈ vs, v.InMessage (requestChildrenData message) ∧
          (v.isLeaf = false ∧ v.path <+: path ∨ v.isLeaf = true ∧ v.path = path)

theorem isPrunedByAck_spec {acks : List (Key × Bool)} {path : Key} {exact : Bool}
    (h : TransferTrieSender.isPrunedByAck acks path exact = true) :
    ∃ a ∈ acks, a.2 = false ∧ a.1 <+: path ∨ exact = true ∧ a.2 = true ∧ a.1 = path := by
  unfold TransferTrieSender.isPrunedByAck at h
  simp only [List.any_eq_true, Bool.or_eq_true, Bool.and_eq_true, Bool.not_eq_true',
    List.isPrefixOf_iff_prefix, beq_iff_eq] at h
  obtain ⟨a, ha, hor⟩ := h
  refine ⟨a, ha, ?_⟩
  rcases hor with ⟨hleaf, hpre⟩ | ⟨⟨hexact, hleaf⟩, heq⟩
  . exact Or.inl ⟨hleaf, hpre⟩
  . exact Or.inr ⟨hexact, hleaf, heq⟩

/-- A list of paths is read back if the lengths fit in 15 bits. -/
theorem build_iff (sessionId : Nat) (dbType : UInt8) (paths : List (Key × Bool)) :
    (∃ vs, ackedPaths (RequestChildrenBuilder.build sessionId dbType paths) = some vs ∧
      vs.map (fun v => (v.path, v.isLeaf)) = paths) ↔ ∀ p ∈ paths, p.1.length < 2 ^ 15 := by
  constructor
  . intro ⟨vs, hvs, hmap⟩ p hp
    rw [← hmap, List.mem_map] at hp
    obtain ⟨v, hv, rfl⟩ := hp
    exact RequestChildrenIterator.length_path_lt hvs v hv
  . intro hpaths
    have hdata := requestChildrenData_build sessionId dbType paths
    have hcount : ∀ ps : List (Key × Bool), ps.length ≤ (ps.flatMap fun p =>
        ackField p.1 p.2 ++ (p.1 ++ RequestChildrenBuilder.padding p.1)).length := by
      intro ps
      induction ps with
      | nil => simp
      | cons p ps ih =>
        rw [List.flatMap_cons, List.length_append, List.length_append, length_ackField,
          List.length_cons]
        omega
    have hlen : paths.length ≤ (RequestChildrenBuilder.build sessionId dbType paths).length := by
      apply (hcount paths).trans
      rw [← hdata, requestChildrenData, List.length_drop]
      omega
    exact RequestChildrenIterator.visits_build hpaths hlen (hdata.trans (List.nil_append _).symm)

/-- What is yielded can be trusted if the message consists of whole entries. -/
theorem soundAcks_iff (message : List UInt8) :
    SoundAcks message ↔ WholeEntries (requestChildrenData message) := by
  have hlen : (requestChildrenData message).length ≤ message.length := by
    rw [requestChildrenData, List.length_drop]
    omega
  obtain ⟨vs, hvs, hiff⟩ := RequestChildrenIterator.visits_spec hlen
    (List.nil_append (requestChildrenData message)).symm
  constructor
  . rintro ⟨vs', hvs', hin, -, -⟩
    have heq : vs = vs' := Option.some.inj (hvs.symm.trans hvs')
    subst heq
    exact hiff.mp hin
  . intro hwhole
    have hin := hiff.mpr hwhole
    refine ⟨vs, hvs, hin, ?_, ?_⟩
    . intro s p hp hnot
      have hpruned : TransferTrieSender.isPrunedByAck
          (vs.map fun v => (v.path, v.isLeaf)) p.path false = true := by
        by_contra hfalse
        apply hnot
        unfold TransferTrieSender.processAck
        simp only [List.mem_append, List.mem_filter]
        exact Or.inr ⟨hp, by simpa using hfalse⟩
      obtain ⟨a, ha, hor⟩ := isPrunedByAck_spec hpruned
      rw [List.mem_map] at ha
      obtain ⟨v, hv, rfl⟩ := ha
      rcases hor with ⟨hleaf, hpre⟩ | ⟨hexact, -, -⟩
      . exact ⟨v, hv, hin v hv, hleaf, hpre⟩
      . cases hexact
    . intro bigValues path hp hnot
      have hpruned : TransferTrieSender.isPrunedByAck
          (vs.map fun v => (v.path, v.isLeaf)) path true = true := by
        by_contra hfalse
        apply hnot
        unfold processBigAck
        simp only [List.mem_filter]
        exact ⟨hp, by simpa using hfalse⟩
      obtain ⟨a, ha, hor⟩ := isPrunedByAck_spec hpruned
      rw [List.mem_map] at ha
      obtain ⟨v, hv, rfl⟩ := ha
      refine ⟨v, hv, hin v hv, ?_⟩
      rcases hor with ⟨hleaf, hpre⟩ | ⟨-, hleaf, heq⟩
      . exact Or.inl ⟨hleaf, hpre⟩
      . exact Or.inr ⟨hleaf, heq⟩

/-- The codec gives back the lists of paths of which the lengths fit in 15 bits, and the
acknowledgements can be trusted of the messages that consist of whole entries. -/
theorem ack_codec (sessionId : Nat) (dbType : UInt8) (paths : List (Key × Bool))
    (message : List UInt8) :
    ((∃ vs, ackedPaths (RequestChildrenBuilder.build sessionId dbType paths) = some vs ∧
      vs.map (fun v => (v.path, v.isLeaf)) = paths) ↔ ∀ p ∈ paths, p.1.length < 2 ^ 15) ∧
    (SoundAcks message ↔ WholeEntries (requestChildrenData message)) :=
  ⟨build_iff sessionId dbType paths, soundAcks_iff message⟩

/-- A path of 32768 bytes is not read back. A message that ends within its first path acknowledges
the root. -/
theorem ack_codec_fails :
    ¬(∃ vs, ackedPaths (RequestChildrenBuilder.build 1 0 [(List.replicate (2 ^ 15) 0x61, false)]) =
        some vs ∧
      vs.map (fun v => (v.path, v.isLeaf)) = [(List.replicate (2 ^ 15) 0x61, false)]) ∧
    ¬SoundAcks ((RequestChildrenBuilder.begin 1 0).finalize ++ [5, 0, 0x61]) := by
  constructor
  . intro h
    have hlt := (build_iff 1 0 _).mp h _ List.mem_cons_self
    rw [List.length_replicate] at hlt
    exact absurd hlt (lt_irrefl _)
  . intro h
    have hdata : requestChildrenData ((RequestChildrenBuilder.begin 1 0).finalize ++ [5, 0, 0x61]) =
        [5, 0, 0x61] := by
      decide
    have hwhole := (soundAcks_iff _).mp h
    rw [hdata] at hwhole
    exact absurd (hwhole.fieldLen_le (by decide)) (by decide)

end Leaves
