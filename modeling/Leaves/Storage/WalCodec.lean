import Leaves.Storage.Wal

/-!
What `wal_parse` reads from a file that `_WalWriter` has written, cut off anywhere. A record is
taken from the bytes at a position, a read outside of the buffer is `none`.
-/

namespace Leaves

def WAL_MAGIC : List UInt8 := [0x4c, 0x56, 0x53, 0x57, 0x41, 0x4c, 0x30, 0x31]

/-- `_WalOpRecord` -/
structure WalOpRecord where
  isDelete : Bool
  key : List UInt8
  val : List UInt8
  deriving DecidableEq, Repr

/-- `_WalTxn` -/
structure WalTxn where
  txnId : Nat
  ops : List WalOpRecord
  deriving DecidableEq, Repr

/-- The variables of `wal_parse`. -/
structure WalParse where
  pos : Nat
  inTxn : Bool
  prepared : Bool
  cur : WalTxn
  result : List WalTxn
  deriving DecidableEq, Repr

/-- `_WalTxn{}` -/
def WalTxn.empty : WalTxn := ⟨0, []⟩

/-- The bytes `data[pos..pos + size)`. -/
def readBytes (data : List UInt8) (pos size : Nat) : Option (List UInt8) :=
  if pos + size ≤ data.length then some ((data.drop pos).take size) else none

def walReadU32 (data : List UInt8) (pos : Nat) : Option Nat := (readBytes data pos 4).map ofLittle

/-- The addition of 32-bit sizes in `pos += 1 + 8 + ksz + vsz`. -/
def walSize (size : Nat) : Nat := size % 2 ^ 32

namespace WalParse

def init : WalParse where
  pos := WAL_HEADER_SIZE
  inTxn := false
  prepared := false
  cur := .empty
  result := []

section Step

variable (data : List UInt8)

def need (s : WalParse) (bytes : Nat) : Bool := s.pos + bytes ≤ data.length

def stepBegin (s : WalParse) : Option (Option WalParse) :=
  if s.need data (1 + 4) then do
    let txnId ← walReadU32 data (s.pos + 1)
    return some { s with
      cur := ⟨txnId, []⟩, pos := s.pos + (1 + 4), inTxn := true, prepared := false }
  else return none

def stepPut (s : WalParse) : Option (Option WalParse) :=
  if s.inTxn && s.need data (1 + 8) then do
    let ksz ← walReadU32 data (s.pos + 1)
    let vsz ← walReadU32 data (s.pos + 5)
    if s.need data (1 + 8 + ksz + vsz) then
      let key ← readBytes data (s.pos + 9) ksz
      let val ← readBytes data (s.pos + 9 + ksz) vsz
      return some { s with
        cur := { s.cur with ops := s.cur.ops ++ [⟨false, key, val⟩] }
        pos := s.pos + walSize (1 + 8 + ksz + vsz) }
    else return none
  else return none

def stepDel (s : WalParse) : Option (Option WalParse) :=
  if s.inTxn && s.need data (1 + 4) then do
    let ksz ← walReadU32 data (s.pos + 1)
    if s.need data (1 + 4 + ksz) then
      let key ← readBytes data (s.pos + 5) ksz
      return some { s with
        cur := { s.cur with ops := s.cur.ops ++ [⟨true, key, []⟩] }
        pos := s.pos + walSize (1 + 4 + ksz) }
    else return none
  else return none

def stepPrepare (s : WalParse) : Option WalParse :=
  if s.inTxn then some { s with prepared := true, pos := s.pos + 1 } else none

def stepCommit (s : WalParse) : Option WalParse :=
  if s.inTxn then
    some { s with
      pos := s.pos + 1
      result := if s.prepared then s.result ++ [s.cur] else s.result
      inTxn := false
      prepared := false }
  else none

/-- One record. `some none` stands for `break`, `none` for a read outside of the buffer. -/
def step (s : WalParse) : Option (Option WalParse) := do
  let tag ← data[s.pos]?
  if tag = WalOp.begin.tag then s.stepBegin data
  else if tag = WalOp.put.tag then s.stepPut data
  else if tag = WalOp.del.tag then s.stepDel data
  else if tag = WalOp.prepare.tag then return s.stepPrepare
  else if tag = WalOp.commit.tag then return s.stepCommit
  else return none

/-- The loop, `none` if it is not done after that many records. -/
def loop : Nat → WalParse → Option WalParse
  | 0, _ => none
  | fuel + 1, s =>
    if s.pos < data.length then
      match s.step data with
      | none => none
      | some none => some s
      | some (some s') => loop fuel s'
    else some s

end Step

/-- `result` and `dangling` -/
def finish (s : WalParse) : List WalTxn × Option WalTxn :=
  (s.result, if s.inTxn && s.prepared then some s.cur else none)

end WalParse

/-- The transactions of a file and the dangling one. -/
def walParse (data : List UInt8) : Option (List WalTxn × Option WalTxn) :=
  if data.length < WAL_HEADER_SIZE then some ([], none)
  else if data.take WAL_HEADER_SIZE ≠ WAL_MAGIC then some ([], none)
  -- a loop that has come to every byte of the buffer is at its end
  else (WalParse.loop data (data.length + 1) .init).map WalParse.finish

/-- A call of the writer in an open transaction. -/
inductive WalCall where
  | put (key value : List UInt8)
  | del (key : List UInt8)
  | prepare
  deriving DecidableEq, Repr

inductive WalEnd where
  | commit
  | abort
  /-- the process does not come to the end of the transaction -/
  | crash
  deriving DecidableEq, Repr

/-- What is done with the writer between two calls of `begin`. -/
structure LogTransaction where
  txnId : UInt32
  calls : List WalCall
  ending : WalEnd
  deriving DecidableEq, Repr

namespace Wal

/-- `begin` on the file `idx` -/
def beginOn (s : Wal) (idx : Bool) (txnId : Nat) : Wal :=
  { s with
    activeLog := idx
    buf := WalOp.begin.tag :: toLittle 4 txnId
    hasRecords := false
    prepared := false
    writer := .writing }

def abort (s : Wal) : Wal := { s with buf := [], hasRecords := false, prepared := false }

def call (s : Wal) : WalCall → Wal
  | .put key value => s.put key value
  | .del key => s.del key
  | .prepare => s.prepare

/-- The cursor prepares a transaction before it commits it. -/
def transact (s : Wal) (idx : Bool) (t : LogTransaction) : Wal :=
  let s := t.calls.foldl call (s.beginOn idx t.txnId.toNat)
  match t.ending with
  | .commit => s.prepare.commit
  | .abort => s.abort
  | .crash => s

/-- The bytes of a file behind the header. -/
def bytes (s : Wal) (idx : Bool) : List UInt8 := (s.file idx).flatMap Prod.snd

/-- The file after these transactions. -/
def logFile (idx : Bool) (ts : List LogTransaction) : List UInt8 :=
  WAL_MAGIC ++ (ts.foldl (fun s t => s.transact idx t) init).bytes idx

end Wal

/-- The record of an operation. -/
def WalOpRecord.bytes (op : WalOpRecord) : List UInt8 :=
  if op.isDelete then WalOp.del.tag :: (toLittle 4 op.key.length ++ op.key)
  else
    WalOp.put.tag :: (toLittle 4 op.key.length ++ (toLittle 4 op.val.length ++ (op.key ++ op.val)))

def WalCall.op : WalCall → Option WalOpRecord
  | .put key value => some ⟨false, key, value⟩
  | .del key => some ⟨true, key, []⟩
  | .prepare => none

namespace LogTransaction

/-- The operations up to the first `prepare`. -/
def early (t : LogTransaction) : List WalOpRecord :=
  (t.calls.takeWhile (· ≠ .prepare)).filterMap WalCall.op

/-- The operations behind it. -/
def late (t : LogTransaction) : List WalOpRecord :=
  (t.calls.dropWhile (· ≠ .prepare)).filterMap WalCall.op

def ops (t : LogTransaction) : List WalOpRecord := t.early ++ t.late

def isPrepared (t : LogTransaction) : Bool := WalCall.prepare ∈ t.calls ∨ t.ending = .commit

/-- The records up to PREPARE. -/
def block (t : LogTransaction) : List UInt8 :=
  WalOp.begin.tag :: (toLittle 4 t.txnId.toNat ++
    (t.early.flatMap WalOpRecord.bytes ++ [WalOp.prepare.tag]))

/-- There is a BEGIN in the file. -/
def isWritten (t : LogTransaction) : Bool := t.early ≠ [] ∧ t.isPrepared

/-- There is a COMMIT in the file. -/
def isCommitted (t : LogTransaction) : Bool := t.ops ≠ [] ∧ t.ending = .commit

/-- What the transaction adds to the file. -/
def image (t : LogTransaction) : List UInt8 :=
  (if t.isWritten then t.block else []) ++ (if t.isCommitted then [WalOp.commit.tag] else [])

/-- The transaction in the first `size` bytes from its own ones on, if its COMMIT is there. -/
def committedIn (t : LogTransaction) (size : Nat) : List WalTxn :=
  if t.isCommitted ∧ t.image.length ≤ size then [⟨t.txnId.toNat, t.ops⟩] else []

/-- It is prepared in them, and not committed. -/
def isDanglingIn (t : LogTransaction) (size : Nat) : Bool :=
  t.isWritten ∧ t.block.length ≤ size ∧ ¬(t.isCommitted ∧ t.image.length ≤ size)

/-- Its first record is there: BEGIN, if it has one, or else COMMIT. -/
def beginsIn (t : LogTransaction) (size : Nat) : Bool :=
  if t.isWritten then 1 + 4 ≤ size else t.isCommitted ∧ 1 ≤ size

/-- The last transaction that begins in these bytes, if it is prepared and not committed. -/
def danglingIn (t : LogTransaction) (last : Option WalTxn) (size : Nat) : Option WalTxn :=
  if t.beginsIn size then
    if t.isDanglingIn size then some ⟨t.txnId.toNat, t.early⟩ else none
  else last

end LogTransaction

/--
The transaction makes no operation between `prepare` and `commit`. If there are no others in front
of `prepare`, COMMIT is the only record of it, and makes the dangling transaction a committed one.
-/
def LogTransaction.Sound (last : Option WalTxn) (t : LogTransaction) : Prop :=
  t.isCommitted = true → t.late = [] ∨ t.early = [] ∧ last = some ⟨t.txnId.toNat, t.late⟩

instance (last : Option WalTxn) (t : LogTransaction) : Decidable (t.Sound last) :=
  inferInstanceAs (Decidable (_ → _))

/-- The transactions whose COMMIT is in the first `size` bytes. -/
def committedIn : List LogTransaction → Nat → List WalTxn
  | [], _ => []
  | t :: ts, size => t.committedIn size ++ committedIn ts (size - t.image.length)

/-- The last transaction in the first `size` bytes, if it is prepared there and not committed. -/
def danglingIn (last : Option WalTxn) : List LogTransaction → Nat → Option WalTxn
  | [], _ => last
  | t :: ts, size => danglingIn (t.danglingIn last size) ts (size - t.image.length)

/-- Each transaction is sound behind those before it. -/
def Sound (last : Option WalTxn) : List LogTransaction → Prop
  | [] => True
  | t :: ts => t.Sound last ∧ Sound (t.danglingIn last t.image.length) ts

instance soundDecidable : (last : Option WalTxn) → (ts : List LogTransaction) →
    Decidable (Sound last ts)
  | _, [] => inferInstanceAs (Decidable True)
  | last, t :: ts =>
    have := soundDecidable (t.danglingIn last t.image.length) ts
    inferInstanceAs (Decidable (_ ∧ _))

/-- The records in front of PREPARE are shorter than 2^32 bytes. -/
def LogTransaction.Fits (t : LogTransaction) : Prop :=
  t.isWritten = true → ∀ op ∈ t.early, op.bytes.length < 2 ^ 32

instance (t : LogTransaction) : Decidable t.Fits := inferInstanceAs (Decidable (_ → _))

/-- What is behind a position of the buffer. -/
def Rest (data : List UInt8) (pos : Nat) (rest : List UInt8) : Prop :=
  pos ≤ data.length ∧ data.drop pos = rest

section Reading

variable {data rest a : List UInt8} {pos : Nat}

theorem Rest.length_eq (h : Rest data pos rest) : data.length = pos + rest.length := by
  rw [← h.2, List.length_drop]
  have := h.1
  omega

theorem Rest.skip (h : Rest data pos (a ++ rest)) : Rest data (pos + a.length) rest := by
  constructor
  . have := h.length_eq
    rw [List.length_append] at this
    omega
  . rw [← List.drop_drop, h.2, List.drop_left]

theorem Rest.skip_cons {b : UInt8} (h : Rest data pos (b :: rest)) : Rest data (pos + 1) rest :=
  Rest.skip (a := [b]) h

theorem Rest.readBytes {size : Nat} (h : Rest data pos (a ++ rest)) (hsize : a.length = size) :
    readBytes data pos size = some a := by
  have hlen := h.length_eq
  rw [List.length_append] at hlen
  rw [Leaves.readBytes, if_pos (by omega), h.2, ← hsize, List.take_left]

theorem Rest.walReadU32 {n : Nat} (h : Rest data pos (toLittle 4 n ++ rest)) (hn : n < 2 ^ 32) :
    walReadU32 data pos = some n := by
  have hlt : n < 256 ^ 4 := hn
  rw [Leaves.walReadU32, h.readBytes (length_toLittle 4 n), Option.map_some, ofLittle_toLittle,
    Nat.mod_eq_of_lt hlt]

theorem Rest.getElem? {b : UInt8} (h : Rest data pos (b :: rest)) : data[pos]? = some b := by
  rw [← List.head?_drop, h.2, List.head?_cons]

theorem Rest.lt {b : UInt8} (h : Rest data pos (b :: rest)) : pos < data.length := by
  have := h.length_eq
  rw [List.length_cons] at this
  omega

theorem readBytes_isSome {size : Nat} (h : pos + size ≤ data.length) :
    ∃ bytes, readBytes data pos size = some bytes := by
  rw [readBytes, if_pos h]
  exact ⟨_, rfl⟩

theorem walReadU32_isSome (h : pos + 4 ≤ data.length) : ∃ n, walReadU32 data pos = some n := by
  obtain ⟨bytes, hbytes⟩ := readBytes_isSome h
  rw [walReadU32, hbytes]
  exact ⟨_, rfl⟩

theorem take_toLittle (x : Nat) (l : List UInt8) (n : Nat) :
    (toLittle 4 x ++ l).take (4 + n) = toLittle 4 x ++ l.take n := by
  have := @List.take_length_add_append _ (toLittle 4 x) l n
  rwa [length_toLittle] at this

theorem walSize_eq {size : Nat} (h : size < 2 ^ 32) : walSize size = size := Nat.mod_eq_of_lt h

end Reading

namespace WalParse

section Steps

variable {data rest : List UInt8} {s : WalParse}

theorem need_iff (h : Rest data s.pos rest) (n : Nat) : s.need data n = true ↔ n ≤ rest.length := by
  rw [need, decide_eq_true_eq, h.length_eq]
  omega

/-- No step reads outside of the buffer. -/
theorem step_inside (h : s.pos < data.length) : ∃ r, s.step data = some r := by
  have htag : data[s.pos]? = some data[s.pos] := List.getElem?_eq_getElem h
  simp only [step, htag, Option.bind_eq_bind, Option.bind_some]
  split
  . unfold stepBegin
    split
    next hneed =>
      rw [need, decide_eq_true_eq] at hneed
      obtain ⟨n, hn⟩ := @walReadU32_isSome data (s.pos + 1) (by omega)
      rw [hn]
      exact ⟨_, rfl⟩
    . exact ⟨_, rfl⟩
  . split
    . unfold stepPut
      split
      next hneed =>
        rw [Bool.and_eq_true, need, decide_eq_true_eq] at hneed
        obtain ⟨ksz, hk⟩ := @walReadU32_isSome data (s.pos + 1) (by omega)
        obtain ⟨vsz, hv⟩ := @walReadU32_isSome data (s.pos + 5) (by omega)
        simp only [hk, hv, Option.bind_eq_bind, Option.bind_some]
        split
        next hsize =>
          rw [need, decide_eq_true_eq] at hsize
          obtain ⟨key, hkey⟩ := @readBytes_isSome data (s.pos + 9) ksz (by omega)
          obtain ⟨val, hval⟩ := @readBytes_isSome data (s.pos + 9 + ksz) vsz (by omega)
          simp only [hkey, hval, Option.bind_some]
          exact ⟨_, rfl⟩
        . exact ⟨_, rfl⟩
      . exact ⟨_, rfl⟩
    . split
      . unfold stepDel
        split
        next hneed =>
          rw [Bool.and_eq_true, need, decide_eq_true_eq] at hneed
          obtain ⟨ksz, hk⟩ := @walReadU32_isSome data (s.pos + 1) (by omega)
          simp only [hk, Option.bind_eq_bind, Option.bind_some]
          split
          next hsize =>
            rw [need, decide_eq_true_eq] at hsize
            obtain ⟨key, hkey⟩ := @readBytes_isSome data (s.pos + 5) ksz (by omega)
            simp only [hkey, Option.bind_some]
            exact ⟨_, rfl⟩
          . exact ⟨_, rfl⟩
        . exact ⟨_, rfl⟩
      . split
        . exact ⟨_, rfl⟩
        . split <;> exact ⟨_, rfl⟩

theorem step_begin {txnId : Nat} (hid : txnId < 2 ^ 32)
    (h : Rest data s.pos (WalOp.begin.tag :: (toLittle 4 txnId ++ rest))) :
    s.step data = some (some { s with
      cur := ⟨txnId, []⟩, pos := s.pos + 5, inTxn := true, prepared := false }) := by
  have hneed : s.need data (1 + 4) = true := by
    rw [need_iff h, List.length_cons, List.length_append, length_toLittle]
    omega
  simp only [step, h.getElem?, Option.bind_eq_bind, Option.bind_some, ↓reduceIte, stepBegin, hneed,
    h.skip_cons.walReadU32 hid]
  rfl

theorem step_op {op : WalOpRecord} (hin : s.inTxn = true) (hval : op.isDelete → op.val = [])
    (hsize : op.bytes.length < 2 ^ 32) (h : Rest data s.pos (op.bytes ++ rest)) :
    s.step data = some (some { s with
      cur := { s.cur with ops := s.cur.ops ++ [op] }, pos := s.pos + op.bytes.length }) := by
  obtain ⟨isDelete, key, val⟩ := op
  cases isDelete with
  | false =>
    have hbytes : (WalOpRecord.mk false key val).bytes =
      WalOp.put.tag :: (toLittle 4 key.length ++ (toLittle 4 val.length ++ (key ++ val))) := rfl
    have hlen : (WalOpRecord.mk false key val).bytes.length = 1 + 8 + key.length + val.length := by
      rw [hbytes]
      simp only [List.length_cons, List.length_append, length_toLittle]
      omega
    rw [hlen] at hsize ⊢
    rw [hbytes, List.cons_append, List.append_assoc, List.append_assoc, List.append_assoc] at h
    have hk := h.skip_cons
    have hv : Rest data (s.pos + 5) _ := (length_toLittle 4 _ ▸ hk.skip :)
    have hkey : Rest data (s.pos + 9) _ := (length_toLittle 4 _ ▸ hv.skip :)
    have hneed : ∀ n, n ≤ 1 + 8 + key.length + val.length → s.need data n = true := by
      intro n hn
      rw [need_iff h]
      simp only [List.length_cons, List.length_append, length_toLittle]
      omega
    simp only [step, h.getElem?, Option.bind_eq_bind, Option.bind_some, stepPut, hin,
      hk.walReadU32 (by omega), hv.walReadU32 (by omega), hneed (1 + 8) (by omega),
      hneed _ (Nat.le_refl _), hkey.readBytes rfl, hkey.skip.readBytes rfl, walSize_eq hsize]
    rfl
  | true =>
    obtain rfl : val = [] := hval rfl
    have hbytes : (WalOpRecord.mk true key []).bytes =
      WalOp.del.tag :: (toLittle 4 key.length ++ key) := rfl
    have hlen : (WalOpRecord.mk true key []).bytes.length = 1 + 4 + key.length := by
      rw [hbytes]
      simp only [List.length_cons, List.length_append, length_toLittle]
      omega
    rw [hlen] at hsize ⊢
    rw [hbytes, List.cons_append, List.append_assoc] at h
    have hk := h.skip_cons
    have hkey : Rest data (s.pos + 5) _ := (length_toLittle 4 _ ▸ hk.skip :)
    have hneed : ∀ n, n ≤ 1 + 4 + key.length → s.need data n = true := by
      intro n hn
      rw [need_iff h]
      simp only [List.length_cons, List.length_append, length_toLittle]
      omega
    simp only [step, h.getElem?, Option.bind_eq_bind, Option.bind_some, stepDel, hin,
      hk.walReadU32 (by omega), hneed (1 + 4) (by omega), hneed _ (Nat.le_refl _),
      hkey.readBytes rfl, walSize_eq hsize]
    rfl

theorem step_prepare (h : Rest data s.pos (WalOp.prepare.tag :: rest)) :
    s.step data = some s.stepPrepare := by
  simp only [step, h.getElem?, Option.bind_eq_bind, Option.bind_some]
  rfl

theorem step_commit (h : Rest data s.pos (WalOp.commit.tag :: rest)) :
    s.step data = some s.stepCommit := by
  simp only [step, h.getElem?, Option.bind_eq_bind, Option.bind_some]
  rfl

/-- A record that is cut off ends the loop. -/
theorem step_begin_cut (h : Rest data s.pos (WalOp.begin.tag :: rest)) (hcut : rest.length < 4) :
    s.step data = some none := by
  have hneed : s.need data (1 + 4) = false := by
    rw [← Bool.not_eq_true, need_iff h, List.length_cons]
    omega
  simp only [step, h.getElem?, Option.bind_eq_bind, Option.bind_some, ↓reduceIte, stepBegin, hneed]
  rfl

theorem step_op_cut {op : WalOpRecord} {size : Nat} (hin : s.inTxn = true)
    (hsize : op.bytes.length < 2 ^ 32) (hpos : 0 < size) (hcut : size < op.bytes.length)
    (h : Rest data s.pos (op.bytes.take size)) : s.step data = some none := by
  obtain ⟨n, rfl⟩ : ∃ n, size = n + 1 := ⟨size - 1, by omega⟩
  have hlen : ((op.bytes.take (n + 1))).length = n + 1 := List.length_take_of_le (by omega)
  have hneed : ∀ m, s.need data m = true ↔ m ≤ n + 1 := by
    intro m
    rw [need_iff h, hlen]
  obtain ⟨isDelete, key, val⟩ := op
  cases isDelete with
  | false =>
    have hbytes : (WalOpRecord.mk false key val).bytes =
      WalOp.put.tag :: (toLittle 4 key.length ++ (toLittle 4 val.length ++ (key ++ val))) := rfl
    have htotal : (WalOpRecord.mk false key val).bytes.length =
        1 + 8 + key.length + val.length := by
      rw [hbytes]
      simp only [List.length_cons, List.length_append, length_toLittle]
      omega
    rw [htotal] at hsize hcut
    rw [hbytes, List.take_succ_cons] at h
    simp only [step, h.getElem?, Option.bind_eq_bind, Option.bind_some, stepPut, hin]
    by_cases hhead : 8 ≤ n
    . obtain ⟨m, rfl⟩ : ∃ m, n = 4 + (4 + m) := ⟨n - 8, by omega⟩
      rw [take_toLittle, take_toLittle] at h
      have hk := h.skip_cons
      have hv : Rest data (s.pos + 5) _ := (length_toLittle 4 _ ▸ hk.skip :)
      have hno : s.need data (1 + 8 + key.length + val.length) = false := by
        rw [← Bool.not_eq_true, hneed]
        omega
      simp only [hk.walReadU32 (show key.length < 2 ^ 32 by omega),
        hv.walReadU32 (show val.length < 2 ^ 32 by omega), (hneed (1 + 8)).mpr (by omega), hno,
        Option.bind_some]
      rfl
    . have hno : s.need data (1 + 8) = false := by
        rw [← Bool.not_eq_true, hneed]
        omega
      rw [hno]
      rfl
  | true =>
    have hbytes : (WalOpRecord.mk true key val).bytes =
      WalOp.del.tag :: (toLittle 4 key.length ++ key) := rfl
    have htotal : (WalOpRecord.mk true key val).bytes.length = 1 + 4 + key.length := by
      rw [hbytes]
      simp only [List.length_cons, List.length_append, length_toLittle]
      omega
    rw [htotal] at hsize hcut
    rw [hbytes, List.take_succ_cons] at h
    simp only [step, h.getElem?, Option.bind_eq_bind, Option.bind_some, stepDel, hin]
    by_cases hhead : 4 ≤ n
    . obtain ⟨m, rfl⟩ : ∃ m, n = 4 + m := ⟨n - 4, by omega⟩
      rw [take_toLittle] at h
      have hk := h.skip_cons
      have hno : s.need data (1 + 4 + key.length) = false := by
        rw [← Bool.not_eq_true, hneed]
        omega
      simp only [hk.walReadU32 (show key.length < 2 ^ 32 by omega), (hneed (1 + 4)).mpr (by omega),
        hno, Option.bind_some]
      rfl
    . have hno : s.need data (1 + 4) = false := by
        rw [← Bool.not_eq_true, hneed]
        omega
      rw [hno]
      rfl

end Steps

/-- The result of the loop. -/
def Ends (data : List UInt8) (s : WalParse) (r : List WalTxn × Option WalTxn) : Prop :=
  ∃ fuel, (loop data fuel s).map finish = some r

section Loop

variable {data : List UInt8} {s s' : WalParse} {r : List WalTxn × Option WalTxn}

theorem Ends.step_iff (hpos : s.pos < data.length) (hs : s.step data = some (some s')) :
    Ends data s r ↔ Ends data s' r := by
  constructor
  . rintro ⟨fuel, hf⟩
    cases fuel with
    | zero => cases hf
    | succ fuel =>
      simp only [loop, if_pos hpos, hs] at hf
      exact ⟨fuel, hf⟩
  . rintro ⟨fuel, hf⟩
    refine ⟨fuel + 1, ?_⟩
    simp only [loop, if_pos hpos, hs]
    exact hf

theorem Ends.stop_iff (hs : s.pos < data.length → s.step data = some none) :
    Ends data s r ↔ r = s.finish := by
  have hloop : ∀ fuel, loop data (fuel + 1) s = some s := by
    intro fuel
    rw [loop]
    split
    next hpos => rw [hs hpos]
    . rfl
  constructor
  . rintro ⟨fuel, hf⟩
    cases fuel with
    | zero => cases hf
    | succ fuel =>
      rw [hloop, Option.map_some, Option.some.injEq] at hf
      exact hf.symm
  . rintro rfl
    refine ⟨1, ?_⟩
    rw [hloop, Option.map_some]

/-- At the end of the buffer. -/
theorem Ends.nil_iff (h : Rest data s.pos []) : Ends data s r ↔ r = s.finish := by
  apply Ends.stop_iff
  intro hpos
  have := h.length_eq
  rw [List.length_nil] at this
  omega

theorem loop_mono {fuel more : Nat} (hle : fuel ≤ more) (h : loop data fuel s = some s') :
    loop data more s = some s' := by
  induction fuel generalizing more s with
  | zero => cases h
  | succ fuel ih =>
    obtain ⟨more, rfl⟩ : ∃ n, more = n + 1 := ⟨more - 1, by omega⟩
    rw [loop] at h ⊢
    split at h
    next hpos =>
      rw [if_pos hpos]
      split at h
      . cases h
      . exact h
      . exact ih (by omega) h
    next hpos =>
      rw [if_neg hpos]
      exact h

end Loop

/-- The record of an operation whose length is a multiple of 2^32. -/
def Stalled (data : List UInt8) (s : WalParse) : Prop :=
  s.inTxn = true ∧ ∃ tag, data[s.pos]? = some tag ∧
    (tag = WalOp.put.tag ∧ (∃ ksz vsz, walReadU32 data (s.pos + 1) = some ksz ∧
      walReadU32 data (s.pos + 5) = some vsz ∧ s.need data (1 + 8 + ksz + vsz) = true ∧
      walSize (1 + 8 + ksz + vsz) = 0) ∨
    tag = WalOp.del.tag ∧ (∃ ksz, walReadU32 data (s.pos + 1) = some ksz ∧
      s.need data (1 + 4 + ksz) = true ∧ walSize (1 + 4 + ksz) = 0))

/-- The loop comes from one state to the other. -/
def Reaches (data : List UInt8) : WalParse → WalParse → Prop :=
  Relation.ReflTransGen fun s s' => s.pos < data.length ∧ s.step data = some (some s')

section Termination

variable {data : List UInt8} {s s' : WalParse}

theorem Stalled.of_same (h : Stalled data s) (hpos : s'.pos = s.pos) (hin : s'.inTxn = s.inTxn) :
    Stalled data s' := by
  unfold Stalled need at h ⊢
  rw [hpos, hin]
  exact h

theorem Stalled.step (h : Stalled data s) :
    ∃ s', s.step data = some (some s') ∧ Stalled data s' := by
  have hstalled := h
  obtain ⟨hin, tag, htag, h⟩ := h
  have hless : ∀ {m n}, s.need data n = true → m ≤ n → s.need data m = true := by
    intro m n hneed hle
    rw [need, decide_eq_true_eq] at hneed ⊢
    omega
  rcases h with ⟨rfl, ksz, vsz, hk, hv, hneed, hsize⟩ | ⟨rfl, ksz, hk, hneed, hsize⟩
  . have hfit := hneed
    rw [need, decide_eq_true_eq] at hfit
    obtain ⟨key, hkey⟩ := @readBytes_isSome data (s.pos + 9) ksz (by omega)
    obtain ⟨val, hval⟩ := @readBytes_isSome data (s.pos + 9 + ksz) vsz (by omega)
    refine ⟨{ s with
      cur := { s.cur with ops := s.cur.ops ++ [⟨false, key, val⟩] }, pos := s.pos + 0 }, ?_, ?_⟩
    . simp only [WalParse.step, htag, Option.bind_eq_bind, Option.bind_some, stepPut, hin, hk, hv,
        hless hneed (show 1 + 8 ≤ 1 + 8 + ksz + vsz by omega), hneed, hkey, hval, hsize]
      rfl
    . exact hstalled.of_same rfl rfl
  . have hfit := hneed
    rw [need, decide_eq_true_eq] at hfit
    obtain ⟨key, hkey⟩ := @readBytes_isSome data (s.pos + 5) ksz (by omega)
    refine ⟨{ s with
      cur := { s.cur with ops := s.cur.ops ++ [⟨true, key, []⟩] }, pos := s.pos + 0 }, ?_, ?_⟩
    . simp only [WalParse.step, htag, Option.bind_eq_bind, Option.bind_some, stepDel, hin, hk,
        hless hneed (show 1 + 4 ≤ 1 + 4 + ksz by omega), hneed, hkey, hsize]
      rfl
    . exact hstalled.of_same rfl rfl

/-- A step goes on to a later position, or it is stalled. -/
theorem step_advances (h : s.step data = some (some s')) : s.pos < s'.pos ∨ Stalled data s := by
  rw [WalParse.step, Option.bind_eq_bind, Option.bind_eq_some_iff] at h
  obtain ⟨tag, htag, h⟩ := h
  split at h
  . left
    unfold stepBegin at h
    split at h
    . rw [Option.bind_eq_bind, Option.bind_eq_some_iff] at h
      obtain ⟨txnId, -, h⟩ := h
      obtain rfl := Option.some.inj (Option.some.inj h)
      exact Nat.lt_add_of_pos_right (by decide)
    . cases h
  . split at h
    next hput =>
      unfold stepPut at h
      split at h
      next hneed =>
        rw [Option.bind_eq_bind, Option.bind_eq_some_iff] at h
        obtain ⟨ksz, hk, h⟩ := h
        rw [Option.bind_eq_bind, Option.bind_eq_some_iff] at h
        obtain ⟨vsz, hv, h⟩ := h
        split at h
        next hfit =>
          rw [Option.bind_eq_some_iff] at h
          obtain ⟨key, -, h⟩ := h
          rw [Option.bind_eq_some_iff] at h
          obtain ⟨val, -, h⟩ := h
          obtain rfl := Option.some.inj (Option.some.inj h)
          rcases Nat.eq_zero_or_pos (walSize (1 + 8 + ksz + vsz)) with hzero | hpos
          . right
            rw [Bool.and_eq_true] at hneed
            exact ⟨hneed.1, tag, htag, Or.inl ⟨hput, ksz, vsz, hk, hv, hfit, hzero⟩⟩
          . exact Or.inl (Nat.lt_add_of_pos_right hpos)
        . cases h
      . cases h
    . split at h
      next hdel =>
        unfold stepDel at h
        split at h
        next hneed =>
          rw [Option.bind_eq_bind, Option.bind_eq_some_iff] at h
          obtain ⟨ksz, hk, h⟩ := h
          split at h
          next hfit =>
            rw [Option.bind_eq_bind, Option.bind_eq_some_iff] at h
            obtain ⟨key, -, h⟩ := h
            obtain rfl := Option.some.inj (Option.some.inj h)
            rcases Nat.eq_zero_or_pos (walSize (1 + 4 + ksz)) with hzero | hpos
            . right
              rw [Bool.and_eq_true] at hneed
              exact ⟨hneed.1, tag, htag, Or.inr ⟨hdel, ksz, hk, hfit, hzero⟩⟩
            . exact Or.inl (Nat.lt_add_of_pos_right hpos)
          . cases h
        . cases h
      . left
        split at h
        . rw [Option.pure_def, Option.some.injEq, stepPrepare] at h
          split at h
          . obtain rfl := Option.some.inj h
            exact Nat.lt_succ_self _
          . cases h
        . split at h
          . rw [Option.pure_def, Option.some.injEq, stepCommit] at h
            split at h
            . obtain rfl := Option.some.inj h
              exact Nat.lt_succ_self _
            . cases h
          . cases h

theorem loop_stalled (h : Stalled data s) (fuel : Nat) : loop data fuel s = none := by
  induction fuel generalizing s with
  | zero => rfl
  | succ fuel ih =>
    have hpos : s.pos < data.length := by
      obtain ⟨-, tag, htag, -⟩ := h
      exact (List.getElem?_eq_some_iff.mp htag).1
    obtain ⟨s', hs, hstalled⟩ := h.step
    simp only [loop, if_pos hpos, hs]
    exact ih hstalled

theorem not_stalled_of_loop {fuel : Nat} {e : WalParse} (h : loop data fuel s = some e)
    (hreach : Reaches data s s') : ¬Stalled data s' := by
  induction hreach using Relation.ReflTransGen.head_induction_on generalizing fuel with
  | refl =>
    intro hstalled
    rw [loop_stalled hstalled] at h
    cases h
  | head hstep _ ih =>
    cases fuel with
    | zero => cases h
    | succ fuel =>
      simp only [loop, if_pos hstep.1, hstep.2] at h
      exact ih h

theorem loop_of_not_stalled (h : ∀ s', Reaches data s s' → ¬Stalled data s') :
    ∃ e, loop data (data.length - s.pos + 1) s = some e := by
  induction hn : data.length - s.pos using Nat.strongRecOn generalizing s with
  | ind n ih =>
    by_cases hpos : s.pos < data.length
    . obtain ⟨r, hs⟩ := step_inside hpos
      cases r with
      | none =>
        simp only [loop, if_pos hpos, hs]
        exact ⟨_, rfl⟩
      | some s' =>
        have hadvance : s.pos < s'.pos := by
          rcases step_advances hs with hlt | hstalled
          . exact hlt
          . exact absurd hstalled (h s .refl)
        obtain ⟨e, he⟩ := ih (data.length - s'.pos) (by omega)
          (fun u hu => h u (Relation.ReflTransGen.head ⟨hpos, hs⟩ hu)) rfl
        refine ⟨e, ?_⟩
        simp only [loop, if_pos hpos, hs]
        exact loop_mono (by omega) he
    . refine ⟨s, ?_⟩
      rw [loop, if_neg hpos]

end Termination

section Transactions

variable {data : List UInt8} {r : List WalTxn × Option WalTxn}

/-- The state behind the operations of an open transaction. -/
def afterOps (s : WalParse) (ops : List WalOpRecord) : WalParse :=
  { s with
    cur := { s.cur with ops := s.cur.ops ++ ops }
    pos := s.pos + (ops.flatMap WalOpRecord.bytes).length }

/-- The records of operations have a length that fits, and a removal has no value. -/
def OpsFit (ops : List WalOpRecord) : Prop :=
  ∀ op ∈ ops, (op.isDelete → op.val = []) ∧ op.bytes.length < 2 ^ 32

theorem bytes_pos (op : WalOpRecord) : 0 < op.bytes.length := by
  unfold WalOpRecord.bytes
  split <;> exact Nat.succ_pos _

theorem ends_ops {ops : List WalOpRecord} (hfit : OpsFit ops) {s : WalParse}
    (hin : s.inTxn = true) {rest : List UInt8}
    (h : Rest data s.pos (ops.flatMap WalOpRecord.bytes ++ rest)) :
    Ends data s r ↔ Ends data (s.afterOps ops) r := by
  induction ops generalizing s with
  | nil =>
    rw [afterOps, List.append_nil]
    rfl
  | cons op ops ih =>
    rw [List.flatMap_cons, List.append_assoc] at h
    obtain ⟨hval, hsize⟩ := hfit op List.mem_cons_self
    have hpos : s.pos < data.length := by
      have := h.length_eq
      rw [List.length_append] at this
      have := bytes_pos op
      omega
    rw [Ends.step_iff hpos (step_op hin hval hsize h)]
    have hops : OpsFit ops := fun op hop => hfit op (List.mem_cons_of_mem _ hop)
    rw [@ih hops { s with
      cur := { s.cur with ops := s.cur.ops ++ [op] }, pos := s.pos + op.bytes.length } hin h.skip]
    unfold afterOps
    rw [List.flatMap_cons, List.length_append, List.append_assoc, Nat.add_assoc]
    rfl

/-- The operations are cut off. -/
theorem ends_ops_cut {ops : List WalOpRecord} (hfit : OpsFit ops) {s : WalParse}
    (hin : s.inTxn = true) (hprep : s.prepared = false) {size : Nat}
    (hcut : size ≤ (ops.flatMap WalOpRecord.bytes).length)
    (h : Rest data s.pos ((ops.flatMap WalOpRecord.bytes).take size)) :
    Ends data s r ↔ r = (s.result, none) := by
  have hfinish : s.finish = (s.result, none) := by
    rw [finish, hin, hprep]
    rfl
  induction ops generalizing s size with
  | nil =>
    rw [List.flatMap_nil, List.take_nil] at h
    rw [Ends.nil_iff h, hfinish]
  | cons op ops ih =>
    obtain ⟨hval, hsize⟩ := hfit op List.mem_cons_self
    rw [List.flatMap_cons] at h hcut
    rw [List.length_append] at hcut
    rcases Nat.eq_zero_or_pos size with rfl | hsome
    . rw [Ends.nil_iff h, hfinish]
    rcases Nat.lt_or_ge size op.bytes.length with hlt | hge
    . rw [List.take_append_of_le_length (Nat.le_of_lt hlt)] at h
      rw [Ends.stop_iff fun _ => step_op_cut hin hsize hsome hlt h, hfinish]
    . obtain ⟨more, rfl⟩ : ∃ more, size = op.bytes.length + more :=
        ⟨_, (Nat.add_sub_of_le hge).symm⟩
      rw [List.take_length_add_append] at h
      have hpos : s.pos < data.length := by
        have := h.length_eq
        rw [List.length_append] at this
        have := bytes_pos op
        omega
      rw [Ends.step_iff hpos (step_op hin hval hsize h)]
      exact ih (fun op hop => hfit op (List.mem_cons_of_mem _ hop)) hin hprep (by omega) h.skip
        (by rw [finish, hin, hprep]; rfl)

theorem Ends.unique {s : WalParse} {r' : List WalTxn × Option WalTxn} (h : Ends data s r)
    (h' : Ends data s r') : r = r' := by
  obtain ⟨fuel, hf⟩ := h
  obtain ⟨fuel', hf'⟩ := h'
  rw [Option.map_eq_some_iff] at hf hf'
  obtain ⟨e, he, rfl⟩ := hf
  obtain ⟨e', he', rfl⟩ := hf'
  have hmax := loop_mono (Nat.le_max_left fuel fuel') he
  rw [loop_mono (Nat.le_max_right fuel fuel') he', Option.some.injEq] at hmax
  rw [hmax]

/-- Between two transactions, `last` is the prepared one that has been read last. -/
structure Between (s : WalParse) (last : Option WalTxn) : Prop where
  inTxn : s.inTxn = last.isSome
  prepared : s.prepared = last.isSome
  cur : ∀ x, last = some x → s.cur = x

theorem Between.finish {s : WalParse} {last : Option WalTxn} (h : s.Between last) :
    s.finish = (s.result, last) := by
  rw [WalParse.finish, h.inTxn, h.prepared]
  cases last with
  | none => rfl
  | some x =>
    rw [h.cur x rfl]
    rfl

/-- The state behind the records up to PREPARE. -/
def afterBlock (s : WalParse) (t : LogTransaction) : WalParse :=
  { s with
    cur := ⟨t.txnId.toNat, t.early⟩
    pos := s.pos + t.block.length
    inTxn := true
    prepared := true }

theorem afterBlock_between (s : WalParse) (t : LogTransaction) :
    (s.afterBlock t).Between (some ⟨t.txnId.toNat, t.early⟩) :=
  ⟨rfl, rfl, fun _ h => Option.some.inj h⟩

theorem ends_block {t : LogTransaction} (hfit : OpsFit t.early) {s : WalParse} {rest : List UInt8}
    (h : Rest data s.pos (t.block ++ rest)) : Ends data s r ↔ Ends data (s.afterBlock t) r := by
  have hlen : t.block.length = 5 + (t.early.flatMap WalOpRecord.bytes).length + 1 := by
    rw [LogTransaction.block]
    simp only [List.length_cons, List.length_append, length_toLittle, List.length_nil]
    omega
  rw [LogTransaction.block, List.cons_append, List.append_assoc, List.append_assoc] at h
  have hops : Rest data (s.pos + 5) _ := (length_toLittle 4 _ ▸ h.skip_cons.skip :)
  have hprepare := hops.skip
  rw [List.singleton_append] at hprepare
  rw [Ends.step_iff h.lt (step_begin t.txnId.toNat_lt h)]
  rw [ends_ops hfit rfl hops]
  rw [Ends.step_iff hprepare.lt (step_prepare hprepare)]
  unfold afterBlock
  rw [hlen, ← Nat.add_assoc, ← Nat.add_assoc]
  rfl

/-- The records up to PREPARE are cut off. -/
theorem ends_block_cut {t : LogTransaction} (hfit : OpsFit t.early) {s : WalParse}
    {last : Option WalTxn} (hs : s.Between last) {size : Nat} (hcut : size < t.block.length)
    (h : Rest data s.pos (t.block.take size)) :
    Ends data s r ↔ r = (s.result, if 1 + 4 ≤ size then none else last) := by
  have hlen : t.block.length = 5 + (t.early.flatMap WalOpRecord.bytes).length + 1 := by
    rw [LogTransaction.block]
    simp only [List.length_cons, List.length_append, length_toLittle, List.length_nil]
    omega
  rcases Nat.eq_zero_or_pos size with rfl | hsome
  . rw [Ends.nil_iff h, hs.finish]
    rfl
  obtain ⟨size, rfl⟩ : ∃ n, size = n + 1 := ⟨size - 1, by omega⟩
  rw [LogTransaction.block, List.take_succ_cons] at h
  rcases Nat.lt_or_ge size 4 with hlt | hge
  . have hshort : ((toLittle 4 t.txnId.toNat ++ (t.early.flatMap WalOpRecord.bytes ++
        [WalOp.prepare.tag])).take size).length < 4 := by
      rw [List.length_take]
      omega
    rw [if_neg (by omega), Ends.stop_iff fun _ => step_begin_cut h hshort, hs.finish]
  . obtain ⟨more, rfl⟩ : ∃ more, size = 4 + more := ⟨size - 4, by omega⟩
    rw [take_toLittle, List.take_append_of_le_length (by omega)] at h
    have hops : Rest data (s.pos + 5) _ := (length_toLittle 4 _ ▸ h.skip_cons.skip :)
    rw [if_pos (by omega), Ends.step_iff h.lt (step_begin t.txnId.toNat_lt h)]
    exact ends_ops_cut hfit rfl rfl (by omega) hops

/-- The state behind the records of a transaction. -/
def afterImage (s : WalParse) (t : LogTransaction) : WalParse :=
  let s := if t.isWritten then s.afterBlock t else s
  if t.isCommitted then
    { s with pos := s.pos + 1, result := s.result ++ [s.cur], inTxn := false, prepared := false }
  else s

section Image

variable {t : LogTransaction}

theorem length_block : 5 < t.block.length := by
  rw [LogTransaction.block]
  simp only [List.length_cons, List.length_append, length_toLittle, List.length_nil]
  omega

theorem length_image : t.image.length =
    (if t.isWritten then t.block.length else 0) + (if t.isCommitted then 1 else 0) := by
  rw [LogTransaction.image, List.length_append]
  split <;> split <;> rfl

theorem committedIn_of_le {size : Nat} (h : t.image.length ≤ size) :
    t.committedIn size = if t.isCommitted then [⟨t.txnId.toNat, t.ops⟩] else [] := by
  simp only [LogTransaction.committedIn, h, and_true]

theorem committedIn_of_lt {size : Nat} (h : size < t.image.length) : t.committedIn size = [] := by
  rw [LogTransaction.committedIn, if_neg]
  rintro ⟨-, hle⟩
  omega

/-- What the transaction leaves behind in the end. -/
theorem danglingIn_of_le {last : Option WalTxn} {size : Nat} (h : t.image.length ≤ size) :
    t.danglingIn last size =
      if t.isCommitted then none
      else if t.isWritten then some ⟨t.txnId.toNat, t.early⟩ else last := by
  have hlen := @length_image t
  have := @length_block t
  simp only [LogTransaction.danglingIn, LogTransaction.beginsIn, LogTransaction.isDanglingIn, h]
  cases hw : t.isWritten <;> cases hc : t.isCommitted <;>
    simp only [hw, hc, ↓reduceIte, Bool.false_eq_true] at hlen ⊢
  . simp
  . have : 1 ≤ size := by omega
    simp [this]
  . have : t.block.length ≤ size := by omega
    have : 1 + 4 ≤ size := by omega
    simp [*]
  . have : 1 + 4 ≤ size := by omega
    simp [*]

/-- While the records are not complete. -/
theorem danglingIn_of_lt {last : Option WalTxn} {size : Nat} (h : size < t.image.length) :
    t.danglingIn last size =
      if t.isWritten = true ∧ 1 + 4 ≤ size then
        if t.block.length ≤ size then some ⟨t.txnId.toNat, t.early⟩ else none
      else last := by
  have hlen := @length_image t
  have hcut : ¬t.image.length ≤ size := Nat.not_le_of_lt h
  simp only [LogTransaction.danglingIn, LogTransaction.beginsIn, LogTransaction.isDanglingIn, hcut]
  cases hw : t.isWritten with
  | false =>
    have : ¬1 ≤ size := by
      rw [hw, if_neg Bool.false_ne_true] at hlen
      split at hlen <;> omega
    simp [this]
  | true => simp

theorem ends_image_cut (hfit : t.isWritten = true → OpsFit t.early) {s : WalParse}
    {last : Option WalTxn} (hs : s.Between last) {size : Nat} (hcut : size < t.image.length)
    (h : Rest data s.pos (t.image.take size)) :
    Ends data s r ↔ r = (s.result, t.danglingIn last size) := by
  have hlen := @length_image t
  have hblock := @length_block t
  rw [danglingIn_of_lt hcut]
  rw [LogTransaction.image] at h
  cases hw : t.isWritten with
  | false =>
    have hzero : size = 0 := by
      rw [hw, if_neg Bool.false_ne_true] at hlen
      split at hlen <;> omega
    subst hzero
    rw [Ends.nil_iff h, hs.finish, if_neg]
    rintro ⟨hwritten, -⟩
    cases hwritten
  | true =>
    rw [hw, if_pos rfl] at h hlen
    rcases Nat.lt_or_ge size t.block.length with hlt | hge
    . rw [List.take_append_of_le_length (Nat.le_of_lt hlt)] at h
      rw [ends_block_cut (hfit hw) hs hlt h, if_neg (Nat.not_le_of_lt hlt)]
      simp only [true_and]
    . obtain rfl : size = t.block.length := by
        split at hlen <;> omega
      rw [List.take_left, ← List.append_nil t.block] at h
      rw [ends_block (hfit hw) h, Ends.nil_iff h.skip, (afterBlock_between s t).finish,
        if_pos ⟨rfl, by omega⟩, if_pos (Nat.le_refl _)]
      rfl

theorem early_of_not_written (hw : t.isWritten = false) (hc : t.isCommitted = true) :
    t.early = [] := by
  unfold LogTransaction.isWritten LogTransaction.isPrepared at hw
  unfold LogTransaction.isCommitted at hc
  rw [decide_eq_true_eq] at hc
  by_contra hearly
  rw [decide_eq_false_iff_not, decide_eq_true_eq] at hw
  exact hw ⟨hearly, Or.inr hc.2⟩

theorem ends_image (hfit : t.isWritten = true → OpsFit t.early) {s : WalParse}
    {last : Option WalTxn} (hs : s.Between last) (hsound : t.Sound last) {rest : List UInt8}
    (h : Rest data s.pos (t.image ++ rest)) : Ends data s r ↔ Ends data (s.afterImage t) r := by
  rw [LogTransaction.image, List.append_assoc] at h
  have hcommit : ∀ {u : WalParse}, Rest data u.pos ([WalOp.commit.tag] ++ rest) →
      u.inTxn = true → u.prepared = true → (Ends data u r ↔ Ends data { u with
        pos := u.pos + 1
        result := u.result ++ [u.cur]
        inTxn := false
        prepared := false } r) := by
    intro u hu hin hprep
    have hstep := step_commit hu
    rw [stepCommit, if_pos hin, if_pos hprep] at hstep
    exact Ends.step_iff hu.lt hstep
  unfold afterImage
  cases hw : t.isWritten with
  | true =>
    simp only [hw, ↓reduceIte] at h ⊢
    rw [ends_block (hfit hw) h]
    cases hc : t.isCommitted with
    | false => rfl
    | true =>
      have hrest := h.skip
      rw [hc] at hrest
      exact hcommit hrest rfl rfl
  | false =>
    cases hc : t.isCommitted with
    | false => rfl
    | true =>
      simp only [hw, hc, ↓reduceIte, Bool.false_eq_true, List.nil_append] at h ⊢
      have hearly := early_of_not_written hw hc
      obtain ⟨x, hlast⟩ : ∃ x, last = some x := by
        rcases hsound hc with hlate | ⟨-, hlast⟩
        . unfold LogTransaction.isCommitted LogTransaction.ops at hc
          rw [hearly, hlate] at hc
          simp at hc
        . exact ⟨_, hlast⟩
      apply hcommit h
      . rw [hs.inTxn, hlast]
        rfl
      . rw [hs.prepared, hlast]
        rfl

theorem afterImage_pos (s : WalParse) : (s.afterImage t).pos = s.pos + t.image.length := by
  rw [length_image]
  unfold afterImage
  cases t.isWritten <;> cases t.isCommitted <;> rfl

theorem afterImage_result {s : WalParse} {last : Option WalTxn} (hs : s.Between last)
    (hsound : t.Sound last) :
    (s.afterImage t).result = s.result ++ t.committedIn t.image.length := by
  rw [committedIn_of_le (Nat.le_refl _)]
  unfold afterImage LogTransaction.ops
  cases hc : t.isCommitted with
  | false => cases t.isWritten <;> simp [afterBlock]
  | true =>
    cases hw : t.isWritten with
    | true =>
      rcases hsound hc with hlate | ⟨hearly, -⟩
      . rw [hlate, List.append_nil]
        rfl
      . unfold LogTransaction.isWritten at hw
        simp [hearly] at hw
    | false =>
      have hearly := early_of_not_written hw hc
      rcases hsound hc with hlate | ⟨-, hlast⟩
      . unfold LogTransaction.isCommitted LogTransaction.ops at hc
        rw [hearly, hlate] at hc
        simp at hc
      . rw [hearly, List.nil_append, ← hs.cur _ hlast]
        rfl

theorem afterImage_between {s : WalParse} {last : Option WalTxn} (hs : s.Between last) :
    (s.afterImage t).Between (t.danglingIn last t.image.length) := by
  rw [danglingIn_of_le (Nat.le_refl _)]
  unfold afterImage
  cases t.isCommitted with
  | true => exact ⟨rfl, rfl, fun _ h => nomatch h⟩
  | false =>
    cases t.isWritten with
    | true => exact afterBlock_between s t
    | false => exact hs

/-- A transaction with operations behind `prepare` is not read as it is. -/
theorem ends_image_unsound (hfit : t.isWritten = true → OpsFit t.early) {s : WalParse}
    {last : Option WalTxn} (hs : s.Between last) (hsound : ¬t.Sound last)
    (h : Rest data s.pos t.image) (hr : Ends data s r) : r.1 ≠ s.result ++ t.committedIn t.image.length := by
  unfold LogTransaction.Sound at hsound
  push Not at hsound
  obtain ⟨hc, hlate, hlast⟩ := hsound
  have hcommit : ∀ {u : WalParse}, Rest data u.pos [WalOp.commit.tag] →
      u.inTxn = true → u.prepared = true → Ends data u r → r.1 = u.result ++ [u.cur] := by
    intro u hu hin hprep hr
    have hstep := step_commit hu
    rw [stepCommit, if_pos hin, if_pos hprep] at hstep
    rw [Ends.step_iff hu.lt hstep, Ends.nil_iff hu.skip_cons] at hr
    rw [hr]
    rfl
  rw [committedIn_of_le (Nat.le_refl _), if_pos hc]
  rw [LogTransaction.image, hc, if_pos rfl] at h
  cases hw : t.isWritten with
  | true =>
    rw [hw, if_pos rfl] at h
    rw [ends_block (hfit hw) h] at hr
    rw [hcommit h.skip rfl rfl hr]
    intro heq
    have hops := congrArg WalTxn.ops (List.singleton_inj.mp (List.append_cancel_left heq))
    exact hlate (List.self_eq_append_right.mp hops)
  | false =>
    have hearly := early_of_not_written hw hc
    rw [hw, if_neg Bool.false_ne_true, List.nil_append] at h
    cases last with
    | none =>
      have hstep := step_commit h
      rw [stepCommit, hs.inTxn, if_neg (by decide)] at hstep
      rw [Ends.stop_iff fun _ => hstep] at hr
      rw [hr]
      exact fun heq => List.cons_ne_nil _ _ (List.self_eq_append_right.mp heq)
    | some x =>
      rw [hcommit h hs.inTxn hs.prepared hr, hs.cur x rfl]
      intro heq
      have hx := List.singleton_inj.mp (List.append_cancel_left heq)
      apply hlast hearly
      rw [hx, LogTransaction.ops, hearly, List.nil_append]

end Image

theorem opsFit_early {t : LogTransaction} (h : t.Fits) : t.isWritten = true → OpsFit t.early := by
  intro hw op hop
  refine ⟨?_, h hw op hop⟩
  obtain ⟨c, -, hc⟩ := List.mem_filterMap.mp hop
  cases c with
  | put key value =>
    obtain rfl := Option.some.inj hc
    exact fun h => absurd h Bool.false_ne_true
  | del key =>
    obtain rfl := Option.some.inj hc
    exact fun _ => rfl
  | prepare => cases hc

theorem committedIn_zero (ts : List LogTransaction) : committedIn ts 0 = [] := by
  induction ts with
  | nil => rfl
  | cons t ts ih =>
    rw [committedIn, Nat.zero_sub, ih, List.append_nil]
    by_cases h : 0 < t.image.length
    . exact committedIn_of_lt h
    . rw [committedIn_of_le (by omega), if_neg]
      intro hc
      have := @length_image t
      rw [hc, if_pos rfl] at this
      omega

theorem danglingIn_zero (ts : List LogTransaction) (last : Option WalTxn) :
    danglingIn last ts 0 = last := by
  induction ts generalizing last with
  | nil => rfl
  | cons t ts ih =>
    rw [danglingIn, Nat.zero_sub, ih]
    unfold LogTransaction.danglingIn LogTransaction.beginsIn
    cases t.isWritten <;> simp

/-- What is read behind the first `pos` bytes is right for every cut of the rest. -/
theorem reads_iff {ts : List LogTransaction} (hfits : ∀ t ∈ ts, t.Fits) {pre : List UInt8}
    {s : WalParse} (hpos : s.pos = pre.length) {last : Option WalTxn} (hs : s.Between last) :
    (∀ size, Ends (pre ++ (ts.flatMap LogTransaction.image).take size) s
      (s.result ++ committedIn ts size, danglingIn last ts size)) ↔ Sound last ts := by
  have hrest : ∀ {pre rest : List UInt8} {s : WalParse}, s.pos = pre.length →
      Rest (pre ++ rest) s.pos rest := by
    intro pre rest s hpos
    rw [hpos]
    exact ⟨by rw [List.length_append]; omega, List.drop_left⟩
  induction ts generalizing pre s last with
  | nil =>
    refine ⟨fun _ => trivial, fun _ size => ?_⟩
    rw [List.flatMap_nil, List.take_nil]
    rw [Ends.nil_iff (hrest hpos), hs.finish, committedIn, List.append_nil]
    rfl
  | cons t ts ih =>
    have hfit := opsFit_early (hfits t List.mem_cons_self)
    have hnext : (s.afterImage t).pos = (pre ++ t.image).length := by
      rw [afterImage_pos, hpos, List.length_append]
    have hlater := ih (fun t ht => hfits t (List.mem_cons_of_mem _ ht)) hnext
      (@afterImage_between t s last hs)
    have hwhole : ∀ size,
        pre ++ ((t :: ts).flatMap LogTransaction.image).take (t.image.length + size) =
        pre ++ t.image ++ (ts.flatMap LogTransaction.image).take size := by
      intro size
      rw [List.flatMap_cons, List.take_length_add_append, List.append_assoc]
    have hcommitted : ∀ size, committedIn (t :: ts) (t.image.length + size) =
        t.committedIn t.image.length ++ committedIn ts size := by
      intro size
      rw [committedIn, Nat.add_sub_cancel_left, committedIn_of_le (by omega),
        committedIn_of_le (Nat.le_refl _)]
    have hdangling : ∀ size, danglingIn last (t :: ts) (t.image.length + size) =
        danglingIn (t.danglingIn last t.image.length) ts size := by
      intro size
      rw [danglingIn, Nat.add_sub_cancel_left, danglingIn_of_le (by omega),
        danglingIn_of_le (Nat.le_refl _)]
    constructor
    . intro h
      have hsound : t.Sound last := by
        by_contra hsound
        have hcut := h t.image.length
        have := hwhole 0
        rw [Nat.add_zero, List.take_zero, List.append_nil] at this
        rw [this] at hcut
        apply ends_image_unsound hfit hs hsound (hrest hpos) hcut
        have := hcommitted 0
        rw [Nat.add_zero, committedIn_zero, List.append_nil] at this
        rw [this]
      refine ⟨hsound, hlater.mp fun size => ?_⟩
      have hcut := h (t.image.length + size)
      rw [hwhole, hcommitted, hdangling, List.append_assoc, ends_image hfit hs hsound (hrest hpos)]
        at hcut
      rw [afterImage_result hs hsound, List.append_assoc, List.append_assoc]
      exact hcut
    . rintro ⟨hsound, h⟩ size
      rcases Nat.lt_or_ge size t.image.length with hlt | hge
      . have hzero : size - t.image.length = 0 := by omega
        rw [committedIn, committedIn_of_lt hlt, hzero, committedIn_zero, danglingIn, hzero,
          danglingIn_zero, List.append_nil, List.append_nil, List.flatMap_cons,
          List.take_append_of_le_length (Nat.le_of_lt hlt)]
        rw [ends_image_cut hfit hs hlt (hrest hpos)]
      . obtain ⟨more, rfl⟩ : ∃ more, size = t.image.length + more :=
          ⟨_, (Nat.add_sub_of_le hge).symm⟩
        have hcut := hlater.mpr h more
        rw [afterImage_result hs hsound, List.append_assoc, List.append_assoc] at hcut
        rw [hwhole, hcommitted, hdangling, List.append_assoc,
          ends_image hfit hs hsound (hrest hpos)]
        exact hcut

end Transactions

end WalParse
namespace Wal

/-- Records have been put in the buffer of the transaction. -/
structure Buffered (s : Wal) (idx : Bool) (txnId : Nat) (file : List UInt8)
    (ops : List WalOpRecord) : Prop where
  activeLog : s.activeLog = idx
  bytes : s.bytes idx = file
  hasRecords : s.hasRecords = decide (ops ≠ [])
  prepared : s.prepared = false
  buf : s.buf = WalOp.begin.tag :: (toLittle 4 txnId ++ ops.flatMap WalOpRecord.bytes)

/-- The transaction has been prepared. -/
structure Prepared (s : Wal) (idx : Bool) (file : List UInt8) (ops : List WalOpRecord) : Prop where
  activeLog : s.activeLog = idx
  bytes : s.bytes idx = file
  hasRecords : s.hasRecords = decide (ops ≠ [])
  prepared : s.prepared = true

section Writing

variable {s : Wal} {idx : Bool} {txnId : Nat} {file : List UInt8} {ops : List WalOpRecord}

theorem pwrite_bytes (h : s.activeLog = idx) (bytes : List UInt8) :
    (s.pwrite bytes).bytes idx = s.bytes idx ++ bytes := by
  unfold Wal.bytes Wal.pwrite
  simp only [h, Function.update_self, List.flatMap_append, List.flatMap_singleton]

theorem beginOn_buffered (s : Wal) (idx : Bool) (txnId : Nat) :
    (s.beginOn idx txnId).Buffered idx txnId (s.bytes idx) [] :=
  ⟨rfl, rfl, rfl, rfl, by rw [List.flatMap_nil, List.append_nil]; rfl⟩

theorem call_record {c : WalCall} {op : WalOpRecord} (hc : c.op = some op) :
    s.call c = s.record op.bytes := by
  cases c with
  | put key value =>
    obtain rfl := Option.some.inj hc
    unfold call Wal.put WalOpRecord.bytes
    simp only [Bool.false_eq_true, ↓reduceIte, List.cons_append, List.append_assoc]
  | del key =>
    obtain rfl := Option.some.inj hc
    rfl
  | prepare => cases hc

theorem hasRecords_append (op : WalOpRecord) : true = decide (ops ++ [op] ≠ []) := by
  rw [eq_comm, decide_eq_true_eq]
  exact List.append_ne_nil_of_right_ne_nil _ (List.cons_ne_nil _ _)

theorem Buffered.call (h : s.Buffered idx txnId file ops) {c : WalCall} {op : WalOpRecord}
    (hc : c.op = some op) : (s.call c).Buffered idx txnId file (ops ++ [op]) := by
  rw [call_record hc]
  refine ⟨h.activeLog, h.bytes, hasRecords_append op, h.prepared, ?_⟩
  rw [record, h.buf, List.flatMap_append, List.flatMap_singleton, List.cons_append,
    List.append_assoc]

theorem Buffered.calls (h : s.Buffered idx txnId file ops) {cs : List WalCall}
    (hcs : .prepare ∉ cs) :
    (cs.foldl Wal.call s).Buffered idx txnId file (ops ++ cs.filterMap WalCall.op) := by
  induction cs generalizing s ops with
  | nil =>
    rw [List.filterMap_nil, List.append_nil]
    exact h
  | cons c cs ih =>
    obtain ⟨op, hop⟩ : ∃ op, c.op = some op := by
      cases c with
      | put key value => exact ⟨_, rfl⟩
      | del key => exact ⟨_, rfl⟩
      | prepare => exact absurd List.mem_cons_self hcs
    have hnext := ih (h.call hop) fun hmem => hcs (List.mem_cons_of_mem _ hmem)
    rw [List.append_assoc] at hnext
    rw [List.filterMap_cons_some hop]
    exact hnext

theorem Buffered.prepare (h : s.Buffered idx txnId file ops) : s.prepare.Prepared idx
    (file ++ if ops = [] then [] else WalOp.begin.tag :: (toLittle 4 txnId ++
      (ops.flatMap WalOpRecord.bytes ++ [WalOp.prepare.tag]))) ops := by
  unfold Wal.prepare
  rw [h.prepared, if_neg Bool.false_ne_true]
  by_cases hops : ops = []
  . have hnone : s.hasRecords = false := by
      rw [h.hasRecords, decide_eq_false_iff_not]
      exact fun hne => hne hops
    rw [hnone, if_neg Bool.false_ne_true, if_pos hops, List.append_nil]
    exact ⟨h.activeLog, h.bytes, hnone.symm.trans h.hasRecords, rfl⟩
  . have hsome : s.hasRecords = true := by
      rw [h.hasRecords, decide_eq_true_eq]
      exact hops
    rw [hsome, if_pos rfl, if_neg hops]
    refine ⟨h.activeLog, ?_, h.hasRecords, rfl⟩
    have hbytes := pwrite_bytes h.activeLog (s.buf ++ [WalOp.prepare.tag])
    rw [h.bytes, h.buf, List.cons_append, List.append_assoc] at hbytes
    rw [h.buf]
    exact hbytes

theorem Prepared.calls (h : s.Prepared idx file ops) (cs : List WalCall) :
    (cs.foldl Wal.call s).Prepared idx file (ops ++ cs.filterMap WalCall.op) := by
  induction cs generalizing s ops with
  | nil =>
    rw [List.filterMap_nil, List.append_nil]
    exact h
  | cons c cs ih =>
    cases hop : c.op with
    | none =>
      have hprepare : s.call c = s := by
        cases c with
        | put key value => cases hop
        | del key => cases hop
        | prepare => rw [Wal.call, Wal.prepare, if_pos h.prepared]
      rw [List.filterMap_cons_none hop, List.foldl_cons, hprepare]
      exact ih h
    | some op =>
      rw [List.filterMap_cons_some hop, List.foldl_cons, call_record hop]
      have hnext : (s.record op.bytes).Prepared idx file (ops ++ [op]) :=
        ⟨h.activeLog, h.bytes, hasRecords_append op, h.prepared⟩
      have hlast := ih hnext
      rw [List.append_assoc] at hlast
      exact hlast

theorem Prepared.commit (h : s.Prepared idx file ops) :
    s.commit.bytes idx = file ++ if ops = [] then [] else [WalOp.commit.tag] := by
  unfold Wal.commit
  rw [h.hasRecords]
  by_cases hops : ops = []
  . rw [if_neg (by simpa using hops), if_pos hops, List.append_nil]
    exact h.bytes
  . rw [if_pos (by simpa using hops), if_neg hops, pwrite_bytes h.activeLog, h.bytes]

@[simp]
theorem abort_bytes (s : Wal) : s.abort.bytes idx = s.bytes idx := rfl

theorem Prepared.prepare (h : s.Prepared idx file ops) : s.prepare = s := by
  rw [Wal.prepare, if_pos h.prepared]

/-- The calls of a transaction have come to `prepare`, or there are none behind it. -/
theorem calls_cases (s : Wal) (idx : Bool) (t : LogTransaction) :
    (WalCall.prepare ∉ t.calls ∧ t.late = [] ∧
      (t.calls.foldl Wal.call (s.beginOn idx t.txnId.toNat)).Buffered idx t.txnId.toNat
        (s.bytes idx) t.early) ∨
    (WalCall.prepare ∈ t.calls ∧
      (t.calls.foldl Wal.call (s.beginOn idx t.txnId.toNat)).Prepared idx
        (s.bytes idx ++ if t.early = [] then [] else t.block) t.ops) := by
  have hsplit := @List.takeWhile_append_dropWhile _ (· ≠ .prepare) t.calls
  have hfirst : WalCall.prepare ∉ t.calls.takeWhile (· ≠ .prepare) := by
    intro hmem
    have := List.all_eq_true.mp List.all_takeWhile _ hmem
    simp at this
  have hbuf := (beginOn_buffered s idx t.txnId.toNat).calls hfirst
  rw [List.nil_append] at hbuf
  cases hdrop : t.calls.dropWhile (· ≠ .prepare) with
  | nil =>
    rw [hdrop, List.append_nil] at hsplit
    left
    refine ⟨hsplit ▸ hfirst, ?_, ?_⟩
    . rw [LogTransaction.late, hdrop, List.filterMap_nil]
    . rw [hsplit] at hbuf
      rw [LogTransaction.early, hsplit]
      exact hbuf
  | cons c cs =>
    obtain rfl : c = .prepare := by
      have := List.head?_dropWhile_not (· ≠ .prepare) t.calls
      rw [hdrop, List.head?_cons] at this
      simpa using this
    right
    rw [hdrop] at hsplit
    have hmem : WalCall.prepare ∈ t.calls := by
      rw [← hsplit]
      exact List.mem_append_right _ List.mem_cons_self
    have hlate : t.late = cs.filterMap WalCall.op := by
      rw [LogTransaction.late, hdrop]
      exact List.filterMap_cons_none rfl
    refine ⟨hmem, ?_⟩
    rw [LogTransaction.ops, hlate, ← hsplit, List.foldl_append, List.foldl_cons]
    exact hbuf.prepare.calls cs

/-- What a transaction adds to its file. -/
theorem transact_bytes (s : Wal) (idx : Bool) (t : LogTransaction) :
    (s.transact idx t).bytes idx = s.bytes idx ++ t.image := by
  have hwritten : t.isWritten =
      decide (t.early ≠ [] ∧ (.prepare ∈ t.calls ∨ t.ending = .commit)) := by
    rw [LogTransaction.isWritten, LogTransaction.isPrepared]
    simp only [decide_eq_true_eq]
  unfold transact LogTransaction.image
  rw [hwritten, LogTransaction.isCommitted]
  rcases calls_cases s idx t with ⟨hcalls, hlate, hbuf⟩ | ⟨hcalls, hprep⟩
  . cases hend : t.ending with
    | commit =>
      have hcommit := hbuf.prepare.commit
      rw [LogTransaction.ops, hlate, List.append_nil]
      dsimp only
      rw [hcommit]
      by_cases hearly : t.early = []
      . simp [hearly]
      . simp [hearly, LogTransaction.block]
    | abort => simpa [hcalls] using hbuf.bytes
    | crash => simpa [hcalls] using hbuf.bytes
  . cases hend : t.ending with
    | commit =>
      dsimp only
      rw [hprep.prepare, hprep.commit]
      by_cases hearly : t.early = [] <;> by_cases hops : t.ops = [] <;> simp [hearly, hops]
    | abort =>
      have := hprep.bytes
      by_cases hearly : t.early = [] <;> simpa [hcalls, hearly] using this
    | crash =>
      have := hprep.bytes
      by_cases hearly : t.early = [] <;> simpa [hcalls, hearly] using this

theorem logFile_eq (idx : Bool) (ts : List LogTransaction) :
    logFile idx ts = WAL_MAGIC ++ ts.flatMap LogTransaction.image := by
  have hrun : ∀ s : Wal, (ts.foldl (fun s t => s.transact idx t) s).bytes idx =
      s.bytes idx ++ ts.flatMap LogTransaction.image := by
    induction ts with
    | nil => exact fun s => (List.append_nil _).symm
    | cons t ts ih =>
      intro s
      rw [List.foldl_cons, ih, transact_bytes, List.flatMap_cons, List.append_assoc]
  rw [logFile, hrun]
  rfl

end Writing

end Wal
section Parse

variable {data : List UInt8}

/-- The loop is entered behind the header. -/
theorem walParse_eq (h : data.take WAL_HEADER_SIZE = WAL_MAGIC) :
    walParse data = (WalParse.loop data (data.length + 1) .init).map WalParse.finish := by
  have hlen : ¬data.length < WAL_HEADER_SIZE := by
    intro hlt
    have := congrArg List.length h
    rw [List.length_take, Nat.min_eq_right (Nat.le_of_lt hlt)] at this
    exact absurd this (Nat.ne_of_lt hlt)
  rw [walParse, if_neg hlen, if_neg (not_not.mpr h)]

theorem walParse_eq_some_iff (h : data.take WAL_HEADER_SIZE = WAL_MAGIC)
    {r : List WalTxn × Option WalTxn} : walParse data = some r ↔ WalParse.Ends data .init r := by
  rw [walParse_eq h]
  refine ⟨fun hr => ⟨_, hr⟩, ?_⟩
  rintro ⟨fuel, hr⟩
  obtain ⟨e, he, rfl⟩ := Option.map_eq_some_iff.mp hr
  obtain ⟨e', he'⟩ := WalParse.loop_of_not_stalled fun u hu => WalParse.not_stalled_of_loop he hu
  have hle : data.length - WalParse.init.pos + 1 ≤ data.length + 1 := by omega
  have hdone := WalParse.loop_mono hle he'
  rw [hdone, Option.map_some, Option.some.injEq]
  exact WalParse.Ends.unique ⟨_, by rw [hdone, Option.map_some]⟩ ⟨_, hr⟩

theorem walParse_isSome_iff : (walParse data).isSome = true ↔
    (data.take WAL_HEADER_SIZE = WAL_MAGIC →
      ∀ s, WalParse.Reaches data .init s → ¬WalParse.Stalled data s) := by
  by_cases h : data.take WAL_HEADER_SIZE = WAL_MAGIC
  . rw [walParse_eq h, Option.isSome_map]
    constructor
    . intro hsome _ s hs
      obtain ⟨e, he⟩ := Option.isSome_iff_exists.mp hsome
      exact WalParse.not_stalled_of_loop he hs
    . intro hstalled
      obtain ⟨e, he⟩ := WalParse.loop_of_not_stalled (hstalled h)
      rw [WalParse.loop_mono (by omega) he]
      rfl
  . refine ⟨fun _ hmagic => absurd hmagic h, fun _ => ?_⟩
    rw [walParse, if_pos h]
    split <;> rfl

/-- Only a record of 2^32 bytes or more is in the way. -/
theorem walParse_isSome (hlen : data.length < 2 ^ 32) : (walParse data).isSome = true := by
  rw [walParse_isSome_iff]
  rintro - s - ⟨-, tag, -, h⟩
  have hfit : ∀ {size}, 0 < size → s.need data size = true → walSize size ≠ 0 := by
    intro size hpos hneed
    rw [WalParse.need, decide_eq_true_eq] at hneed
    rw [walSize_eq (by omega)]
    omega
  rcases h with ⟨-, ksz, vsz, -, -, hneed, hsize⟩ | ⟨-, ksz, -, hneed, hsize⟩
  . exact hfit (by omega) hneed hsize
  . exact hfit (by omega) hneed hsize

end Parse

namespace Wal

/--
What has been written comes back from every cut of the file if and only if no operation is made
between `prepare` and `commit`. Any other buffer is read inside its bounds.
-/
theorem codec (idx : Bool) (ts : List LogTransaction) (hfits : ∀ t ∈ ts, t.Fits)
    (data : List UInt8) :
    ((∀ size, walParse ((logFile idx ts).take size) =
        some (committedIn ts (size - WAL_HEADER_SIZE),
          danglingIn none ts (size - WAL_HEADER_SIZE))) ↔
      Sound none ts) ∧
    (∀ s, WalParse.Reaches data .init s → s.pos < data.length → (s.step data).isSome = true) ∧
    ((walParse data).isSome = true ↔
      (data.take WAL_HEADER_SIZE = WAL_MAGIC →
        ∀ s, WalParse.Reaches data .init s → ¬WalParse.Stalled data s)) := by
  refine ⟨?_, ?_, walParse_isSome_iff⟩
  . have hbetween : WalParse.init.Between none := ⟨rfl, rfl, fun _ h => nomatch h⟩
    rw [logFile_eq, ← @WalParse.reads_iff ts hfits WAL_MAGIC .init rfl none hbetween]
    have hcut : ∀ size,
        (WAL_MAGIC ++ ts.flatMap LogTransaction.image).take (WAL_HEADER_SIZE + size) =
        WAL_MAGIC ++ (ts.flatMap LogTransaction.image).take size :=
      @List.take_length_add_append _ WAL_MAGIC _
    have hread : ∀ size, walParse (WAL_MAGIC ++ (ts.flatMap LogTransaction.image).take size) =
        some (committedIn ts size, danglingIn none ts size) ↔
      WalParse.Ends (WAL_MAGIC ++ (ts.flatMap LogTransaction.image).take size) .init
        (WalParse.init.result ++ committedIn ts size, danglingIn none ts size) :=
      fun size => walParse_eq_some_iff (@List.take_left _ WAL_MAGIC _)
    constructor
    . intro h size
      have := h (WAL_HEADER_SIZE + size)
      rw [hcut, Nat.add_sub_cancel_left] at this
      exact (hread size).mp this
    . intro h size
      rcases Nat.lt_or_ge size WAL_HEADER_SIZE with hlt | hge
      . have hzero : size - WAL_HEADER_SIZE = 0 := by omega
        rw [hzero, WalParse.committedIn_zero, WalParse.danglingIn_zero, walParse, if_pos]
        rw [List.length_take]
        omega
      . obtain ⟨more, rfl⟩ : ∃ more, size = WAL_HEADER_SIZE + more :=
          ⟨_, (Nat.add_sub_of_le hge).symm⟩
        rw [hcut, Nat.add_sub_cancel_left]
        exact (hread more).mpr (h more)
  . intro s _ hpos
    obtain ⟨r, hr⟩ := WalParse.step_inside hpos
    rw [hr]
    rfl

/-- Committed and empty transactions, and prepared ones that are not committed. -/
def logHistory : List LogTransaction :=
  [⟨1, [.put [0x61] [1], .del [0x62]], .commit⟩, ⟨2, [.prepare], .commit⟩,
    ⟨3, [.put [0x63] [2], .prepare], .abort⟩, ⟨3, [.put [0x63] [3]], .abort⟩,
    ⟨3, [.put [0x63] [4], .prepare, .prepare], .commit⟩, ⟨4, [.del [0x61], .prepare], .crash⟩]

/-- A crash has cut the file behind 40 bytes. -/
theorem codec_history : walParse ((logFile false logHistory).take 40) =
    some (committedIn logHistory (40 - WAL_HEADER_SIZE),
      danglingIn none logHistory (40 - WAL_HEADER_SIZE)) :=
  (codec false logHistory (by decide) []).1.mpr (by decide) 40

example : walParse (logFile false logHistory) = some
    ([⟨1, [⟨false, [0x61], [1]⟩, ⟨true, [0x62], []⟩]⟩, ⟨3, [⟨false, [0x63], [4]⟩]⟩],
      some ⟨4, [⟨true, [0x61], []⟩]⟩) := by
  decide +kernel

/-- A transaction that is prepared before its first operation, and one behind it. -/
def hiddenHistory : List LogTransaction :=
  [⟨1, [.prepare, .put [0x61] [1]], .commit⟩, ⟨2, [.put [0x62] [2]], .commit⟩]

/-- No transaction comes back: the file begins with a COMMIT. -/
theorem codec_hidden : ¬∀ (idx : Bool) (ts : List LogTransaction) (size : Nat),
    walParse ((logFile idx ts).take size) =
      some (committedIn ts (size - WAL_HEADER_SIZE),
        danglingIn none ts (size - WAL_HEADER_SIZE)) := by
  intro h
  have hparse : walParse ((logFile false hiddenHistory).take 40) = some ([], none) := by
    decide +kernel
  rw [h] at hparse
  exact absurd hparse (by decide +kernel)

end Wal
end Leaves
