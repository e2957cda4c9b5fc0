import Leaves.Core.Util
import Leaves.Memory.Disjointness

/-!
Streaming the big values behind a trie: `_send_big_value_start` and `_send_big_value_chunk` of
`replication/_replication_fsm.hpp`, `handle_start` and `handle_data` of
`replication/_big_value_receiver.hpp`.
-/

namespace Leaves

inductive ReplicationError where
  | invalidMessage
  | internalError
  | resourceLimit
  deriving DecidableEq, Repr

/-- A big value that waits for its transmission, with the bytes `resolve_big_value` finds. -/
structure PendingBigValue where
  wireChunkOffset : Nat
  data : List UInt8
  offset_lt : wireChunkOffset < 2 ^ 64
  size_lt : data.length < 2 ^ 32

/-- `sizeof(BigValueDataHeader)` -/
def BIG_VALUE_DATA_HEADER_SIZE : Nat := 12

/-- `sizeof(BigValueStartHeader)` -/
def BIG_VALUE_START_HEADER_SIZE : Nat := 12

/-- What a value takes in the area: a chunk as the big memory has it. -/
def alignedSize (valueSize : Nat) : Nat := padding (FREE_KEY_SIZE + valueSize) MAX_PAGE_SIZE

namespace PendingBigValue

/-- `BigValueDataHeader` -/
def header (v : PendingBigValue) : List UInt8 :=
  toLittle 8 v.wireChunkOffset ++ toLittle 4 v.data.length

/-- What is sent for the value. -/
def bytes (v : PendingBigValue) : List UInt8 := v.header ++ v.data

end PendingBigValue

def totalAlignedSize (bigValues : List PendingBigValue) : Nat :=
  (bigValues.map fun v => alignedSize v.data.length).sum

/-- The state of the sender. -/
structure BigValueSender where
  /-- the values from `_bv_current_idx` on -/
  bigValues : List PendingBigValue
  currentOffset : Nat
  headerSent : Bool
  headerBytesSent : Nat

namespace BigValueSender

/-- `BigValueStartHeader` -/
def startHeader (bigValues : List PendingBigValue) : List UInt8 :=
  toLittle 4 bigValues.length ++ toLittle 8 (totalAlignedSize bigValues)

/-- `_send_big_value_start`, without values it is `_send_complete` that goes out. -/
def start (bigValues : List PendingBigValue) : Option (List UInt8 × BigValueSender) :=
  if bigValues = [] then none else some (startHeader bigValues, ⟨bigValues, 0, false, 0⟩)

/-- The header of the value, or as much of it as there is space for. -/
def sendHeader (limit : Nat) (v : PendingBigValue) (s : BigValueSender) (chunk : List UInt8) :
    Bool × BigValueSender × List UInt8 :=
  if s.headerSent then (true, s, chunk)
  else
    let headerRemaining := BIG_VALUE_DATA_HEADER_SIZE - s.headerBytesSent
    let headerToSend := min headerRemaining (limit - chunk.length)
    let chunk := chunk ++ (v.header.drop s.headerBytesSent).take headerToSend
    if headerToSend < headerRemaining then
      (false, { s with headerBytesSent := s.headerBytesSent + headerToSend }, chunk)
    else (true, { s with headerSent := true, headerBytesSent := 0, currentOffset := 0 }, chunk)

/-- The loop of `_send_big_value_chunk`, `chunk` is in the message already. -/
def chunkLoop (limit : Nat) :
    List PendingBigValue → BigValueSender → List UInt8 → List UInt8 × BigValueSender
  | [], s, chunk => (chunk, { s with bigValues := [] })
  | v :: bigValues, s, chunk =>
    if limit ≤ chunk.length then (chunk, { s with bigValues := v :: bigValues })
    else
      match sendHeader limit v s chunk with
      | (false, s, chunk) => (chunk, { s with bigValues := v :: bigValues })
      | (true, s, chunk) =>
        let dataToSend := min (v.data.length - s.currentOffset) (limit - chunk.length)
        let chunk := chunk ++ (v.data.drop s.currentOffset).take dataToSend
        let currentOffset := s.currentOffset + dataToSend
        if v.data.length ≤ currentOffset then
          chunkLoop limit bigValues
            { s with currentOffset := 0, headerSent := false, headerBytesSent := 0 } chunk
        else (chunk, { s with bigValues := v :: bigValues, currentOffset })

/-- `_send_big_value_chunk` -/
def sendChunk (limit : Nat) (s : BigValueSender) : List UInt8 × BigValueSender :=
  chunkLoop limit s.bigValues s []

end BigValueSender

/--
`assertion` is the one of `Area::init`: an area has 32 bits for its size. `outside` is a write
behind the area that has been reserved.
-/
inductive BigValueFault where
  | error (code : ReplicationError) (message : String)
  | assertion
  | outside
  deriving DecidableEq, Repr

structure BigValueReceiver where
  maxSize : Nat
  /-- `_offsets`, the entry of a key that was written last comes first -/
  offsets : List (Nat × Nat)
  usingTmpArea : Bool
  /-- the area of the pool, or the temporary one -/
  memory : Nat → UInt8
  areaOffset : Nat
  areaSize : Nat
  writePos : Nat
  expectedCount : Nat
  receivedCount : Nat
  headerBuf : List UInt8
  currentWireOffset : Nat
  currentSize : Nat
  currentReceived : Nat
  parsingHeader : Bool

namespace BigValueReceiver

/-- `DEFAULT_MAX_SIZE` -/
def DEFAULT_MAX_SIZE : Nat := 256 * 1024 * 1024

/-- A receiver before the first message. -/
def init (maxSize : Nat) : BigValueReceiver :=
  { maxSize, offsets := [], usingTmpArea := false, memory := fun _ => 0, areaOffset := 0,
    areaSize := 0, writePos := 0, expectedCount := 0, receivedCount := 0, headerBuf := [],
    currentWireOffset := 0, currentSize := 0, currentReceived := 0, parsingHeader := true }

/-- `handle_start`, `area` is where the pool has space for the values. -/
def handleStart (r : BigValueReceiver) (payload : List UInt8) (area : Option Nat) :
    Except BigValueFault BigValueReceiver :=
  if payload.length < BIG_VALUE_START_HEADER_SIZE then
    .error (.error .invalidMessage "BIG_VALUE_START payload too small")
  else
    let r := { r with expectedCount := ofLittle (payload.take 4), receivedCount := 0 }
    let totalAlignedSize := ofLittle ((payload.drop 4).take 8)
    if r.maxSize < totalAlignedSize then
      .error (.error .resourceLimit "Big value total size exceeds limit")
    else
      let allocSize := padding totalAlignedSize AREA_SIZE
      let r :=
        { r with
          writePos := 0, offsets := [], headerBuf := [], currentWireOffset := 0, currentSize := 0,
          currentReceived := 0, parsingHeader := true }
      if allocSize ≤ AREA_SIZE then
        .ok { r with usingTmpArea := true, areaOffset := 0, areaSize := AREA_SIZE }
      else
        match area with
        | none => .error (.error .internalError "alloc_multi_area")
        | some offset =>
          if 2 ^ 32 ≤ allocSize then .error .assertion
          else
            let area : Area := ⟨offset, allocSize⟩
            .ok { r with
              usingTmpArea := false, areaOffset := area.contentOffset,
              areaSize := area.stop - area.contentOffset }

def write (r : BigValueReceiver) (pos : Nat) (bytes : List UInt8) :
    Except BigValueFault BigValueReceiver :=
  if pos + bytes.length ≤ r.areaSize then
    .ok { r with
      memory := fun i =>
        if pos ≤ i ∧ i < pos + bytes.length then bytes.getD (i - pos) 0 else r.memory i }
  else .error .outside

/-- `_FreeKey`: the size is stored big endian. -/
def freeKey (size offset : Nat) : List UInt8 := (toLittle 8 size).reverse ++ toLittle 8 offset

/-- The header of a value is complete. -/
def startValue (r : BigValueReceiver) : Except BigValueFault BigValueReceiver :=
  let wireOffset := ofLittle (r.headerBuf.take 8)
  let size := ofLittle (r.headerBuf.drop 8)
  if r.areaSize < r.writePos + alignedSize size then
    .error (.error .internalError "Big value area overflow")
  else
    let headerOffset := r.areaOffset + r.writePos
    let successor := if r.receivedCount + 1 < r.expectedCount then 1 else 0
    (r.write r.writePos (freeKey (alignedSize size) (headerOffset ||| successor))).map fun r =>
      { r with
        currentWireOffset := wireOffset, currentSize := size, currentReceived := 0,
        parsingHeader := false
        offsets := (wireOffset, headerOffset + FREE_KEY_SIZE) :: r.offsets }

/-- The bytes of a value that are there, and whether it is complete. -/
def receiveValue (r : BigValueReceiver) (ptr : List UInt8) :
    Except BigValueFault (BigValueReceiver × Nat) :=
  let dataToRead := min (r.currentSize - r.currentReceived) ptr.length
  let written : Except BigValueFault BigValueReceiver :=
    if 0 < dataToRead then
      (r.write (r.writePos + FREE_KEY_SIZE + r.currentReceived) (ptr.take dataToRead)).map fun r =>
        { r with currentReceived := r.currentReceived + dataToRead }
    else .ok r
  written.map fun r =>
    if r.currentSize ≤ r.currentReceived then
      ({ r with
        writePos := r.writePos + alignedSize r.currentSize, receivedCount := r.receivedCount + 1,
        headerBuf := [], parsingHeader := true }, dataToRead)
    else (r, dataToRead)

/-- The loop of `handle_data`, every round takes at least one byte. -/
def dataLoop : Nat → BigValueReceiver → List UInt8 → Nat →
    Except BigValueFault (BigValueReceiver × Nat)
  | 0, r, _, delta => .ok (r, delta)
  | fuel + 1, r, ptr, delta =>
    if ptr = [] then .ok (r, delta)
    else if r.parsingHeader then
      let headerToRead := min (BIG_VALUE_DATA_HEADER_SIZE - r.headerBuf.length) ptr.length
      let r := { r with headerBuf := r.headerBuf ++ ptr.take headerToRead }
      let ptr := ptr.drop headerToRead
      if r.headerBuf.length < BIG_VALUE_DATA_HEADER_SIZE then .ok (r, delta)
      else
        r.startValue.bind fun r =>
          (r.receiveValue ptr).bind fun x => dataLoop fuel x.1 (ptr.drop x.2) (delta + x.2)
    else (r.receiveValue ptr).bind fun x => dataLoop fuel x.1 (ptr.drop x.2) (delta + x.2)

/-- `handle_data`: the receiver, `bytes_delta` and `all_received`. -/
def handleData (r : BigValueReceiver) (payload : List UInt8) :
    Except BigValueFault (BigValueReceiver × Nat × Bool) :=
  (dataLoop (payload.length + 1) r payload 0).map fun x =>
    (x.1, x.2, decide (x.1.expectedCount ≤ x.1.receivedCount))

/-- The place a leaf finds its value at. -/
def place (r : BigValueReceiver) (wireChunkOffset : Nat) : Option Nat :=
  (r.offsets.find? fun x => x.1 = wireChunkOffset).map (·.2)

end BigValueReceiver

/-- The chunks are sent and received one by one, with `all_received` after each of them. -/
def streamRounds (limit : Nat) : Nat → BigValueSender → BigValueReceiver →
    Except BigValueFault (List Bool × BigValueSender × BigValueReceiver)
  | 0, s, r => .ok ([], s, r)
  | n + 1, s, r =>
    let (chunk, s) := s.sendChunk limit
    (r.handleData chunk).bind fun x =>
      (streamRounds limit n s x.1).map fun y => (x.2.2 :: y.1, y.2)

/-- Every byte of the value is at the place its leaf refers to, in the area. -/
def BigValueReceiver.Holds (r : BigValueReceiver) (v : PendingBigValue) : Prop :=
  ∃ place, r.place v.wireChunkOffset = some place ∧ r.areaOffset ≤ place ∧
    place + v.data.length ≤ r.areaOffset + r.areaSize ∧
    ∀ i (h : i < v.data.length), r.memory (place - r.areaOffset + i) = v.data[i]

/--
The values are announced and sent to the last byte, the receiver has all of them with the last
message and not before, and keeps them.
-/
def Streams (limit : Nat) (r : BigValueReceiver) (area : Nat) (bigValues : List PendingBigValue) :
    Prop :=
  ∀ message s0, BigValueSender.start bigValues = some (message, s0) →
    ∃ r0 n s r1, r.handleStart message (some area) = .ok r0 ∧
      streamRounds limit (n + 1) s0 r0 = .ok (List.replicate n false ++ [true], s, r1) ∧
      s.bigValues = [] ∧ ∀ v ∈ bigValues, r1.Holds v

/-- The bytes that are sent for some values. -/
def streamOf (bigValues : List PendingBigValue) : List UInt8 :=
  bigValues.flatMap PendingBigValue.bytes

section Bytes

theorem length_header (v : PendingBigValue) : v.header.length = BIG_VALUE_DATA_HEADER_SIZE := by
  rw [PendingBigValue.header, List.length_append, length_toLittle, length_toLittle]
  rfl

theorem ofLittle_header (v : PendingBigValue) :
    ofLittle (v.header.take 8) = v.wireChunkOffset ∧ ofLittle (v.header.drop 8) = v.data.length := by
  have hlen : (toLittle 8 v.wireChunkOffset).length = 8 := length_toLittle _ _
  rw [PendingBigValue.header]
  constructor
  . rw [List.take_left' hlen, ofLittle_toLittle]
    exact Nat.mod_eq_of_lt v.offset_lt
  . rw [List.drop_left' hlen, ofLittle_toLittle]
    exact Nat.mod_eq_of_lt v.size_lt

@[simp]
theorem streamOf_nil : streamOf [] = [] := rfl

theorem streamOf_cons (v : PendingBigValue) (l : List PendingBigValue) :
    streamOf (v :: l) = v.header ++ (v.data ++ streamOf l) := by
  rw [streamOf, List.flatMap_cons, PendingBigValue.bytes, List.append_assoc, streamOf]

/-- Inside the header of a value. -/
theorem drop_streamOf_header {v : PendingBigValue} {l : List PendingBigValue} {k : Nat}
    (hk : k ≤ BIG_VALUE_DATA_HEADER_SIZE) :
    (streamOf (v :: l)).drop k = v.header.drop k ++ (v.data ++ streamOf l) := by
  rw [streamOf_cons, List.drop_append_of_le_length (by rw [length_header]; exact hk)]

/-- Inside the data of a value. -/
theorem drop_streamOf_data {v : PendingBigValue} {l : List PendingBigValue} {n : Nat}
    (hn : n ≤ v.data.length) :
    (streamOf (v :: l)).drop (BIG_VALUE_DATA_HEADER_SIZE + n) = v.data.drop n ++ streamOf l := by
  rw [streamOf_cons, ← length_header v, List.drop_length_add_append,
    List.drop_append_of_le_length hn]

@[simp]
theorem totalAlignedSize_nil : totalAlignedSize [] = 0 := rfl

@[simp]
theorem totalAlignedSize_cons (v : PendingBigValue) (l : List PendingBigValue) :
    totalAlignedSize (v :: l) = alignedSize v.data.length + totalAlignedSize l := by
  simp [totalAlignedSize]

@[simp]
theorem totalAlignedSize_append (l l' : List PendingBigValue) :
    totalAlignedSize (l ++ l') = totalAlignedSize l + totalAlignedSize l' := by
  simp [totalAlignedSize]

theorem lt_alignedSize (n : Nat) : FREE_KEY_SIZE + n ≤ alignedSize n :=
  le_padding (by decide)

theorem alignedSize_pos (n : Nat) : MAX_PAGE_SIZE ≤ alignedSize n := by
  have h := lt_alignedSize n
  unfold alignedSize padding MAX_PAGE_SIZE FREE_KEY_SIZE at *
  omega

theorem length_le_totalAlignedSize (l : List PendingBigValue) :
    l.length * MAX_PAGE_SIZE ≤ totalAlignedSize l := by
  induction l with
  | nil => exact Nat.le_refl 0
  | cons v l ih =>
    have := alignedSize_pos v.data.length
    rw [List.length_cons, totalAlignedSize_cons, Nat.succ_mul]
    omega

theorem totalAlignedSize_dvd (l : List PendingBigValue) : totalAlignedSize l % MAX_PAGE_SIZE = 0 := by
  induction l with
  | nil => rfl
  | cons v l ih =>
    have h : alignedSize v.data.length % MAX_PAGE_SIZE = 0 := Nat.mul_mod_left _ _
    rw [totalAlignedSize_cons, Nat.add_mod, h, ih]
    rfl

end Bytes

/-- Where the values are put that come to the position `pos` of an area. -/
def placesFrom (areaOffset : Nat) : Nat → List PendingBigValue → List (Nat × Nat)
  | _, [] => []
  | pos, v :: l =>
    (v.wireChunkOffset, areaOffset + pos + FREE_KEY_SIZE) ::
      placesFrom areaOffset (pos + alignedSize v.data.length) l

theorem placesFrom_append (areaOffset pos : Nat) (l l' : List PendingBigValue) :
    placesFrom areaOffset pos (l ++ l') =
      placesFrom areaOffset pos l ++ placesFrom areaOffset (pos + totalAlignedSize l) l' := by
  induction l generalizing pos with
  | nil => rfl
  | cons v l ih =>
    rw [List.cons_append, placesFrom, ih, placesFrom, List.cons_append, totalAlignedSize_cons,
      ← Nat.add_assoc pos (alignedSize v.data.length)]

namespace BigValueReceiver

/-- The values `done` have been received by `r0`. -/
structure Received (r0 r : BigValueReceiver) (done : List PendingBigValue) : Prop where
  areaOffset : r.areaOffset = r0.areaOffset
  areaSize : r.areaSize = r0.areaSize
  expectedCount : r.expectedCount = r0.expectedCount
  writePos : r.writePos = totalAlignedSize done
  fits : totalAlignedSize done ≤ r.areaSize
  receivedCount : r.receivedCount = done.length
  stored : ∀ l v l', done = l ++ v :: l' → ∀ i (h : i < v.data.length),
    r.memory (totalAlignedSize l + FREE_KEY_SIZE + i) = v.data[i]

/-- The beginning `buf` of the next header has been received. -/
structure InHeader (r0 r : BigValueReceiver) (done : List PendingBigValue) (buf : List UInt8) : Prop
    extends Received r0 r done where
  parsing : r.parsingHeader = true
  headerBuf : r.headerBuf = buf
  offsets : r.offsets = (placesFrom r0.areaOffset 0 done).reverse

/-- The header of `v` and `n` bytes of its data have been received. -/
structure InData (r0 r : BigValueReceiver) (done : List PendingBigValue) (v : PendingBigValue)
    (n : Nat) : Prop extends Received r0 r done where
  parsing : r.parsingHeader = false
  currentSize : r.currentSize = v.data.length
  currentReceived : r.currentReceived = n
  room : totalAlignedSize (done ++ [v]) ≤ r.areaSize
  partly : ∀ i (h : i < v.data.length), i < n →
    r.memory (totalAlignedSize done + FREE_KEY_SIZE + i) = v.data[i]
  offsets : r.offsets = (placesFrom r0.areaOffset 0 (done ++ [v])).reverse

/-- The receiver has `done` and `k` bytes of what is sent for the rest. -/
def At (r0 r : BigValueReceiver) (done : List PendingBigValue) : List PendingBigValue → Nat → Prop
  | [], k => k = 0 ∧ InHeader r0 r done []
  | v :: _, k =>
    k < BIG_VALUE_DATA_HEADER_SIZE ∧ InHeader r0 r done (v.header.take k) ∨
    ∃ n, k = BIG_VALUE_DATA_HEADER_SIZE + n ∧ n < v.data.length ∧ InData r0 r done v n

/-- Between two values. -/
theorem InHeader.at_zero {r0 r : BigValueReceiver} {done : List PendingBigValue}
    (h : InHeader r0 r done []) (rest : List PendingBigValue) : At r0 r done rest 0 := by
  cases rest with
  | nil => exact ⟨rfl, h⟩
  | cons v l => exact Or.inl ⟨by decide, h⟩

theorem At.received {r0 r : BigValueReceiver} {done rest : List PendingBigValue} {k : Nat}
    (h : At r0 r done rest k) : Received r0 r done := by
  cases rest with
  | nil => exact h.2.toReceived
  | cons v l =>
    rcases h with ⟨-, h⟩ | ⟨n, -, -, h⟩
    . exact h.toReceived
    . exact h.toReceived

/-- A complaint of `handle_data`. -/
def overflow : BigValueFault := .error .internalError "Big value area overflow"

section Steps

variable {r0 r : BigValueReceiver} {done : List PendingBigValue} {v : PendingBigValue} {n : Nat}

/-- A write behind the values that are there already. -/
theorem Received.write (h : Received r0 r done) (pos : Nat) (bytes : List UInt8)
    (hpos : totalAlignedSize done ≤ pos) (hroom : pos + bytes.length ≤ r.areaSize) :
    ∃ r', r.write pos bytes = .ok r' ∧ Received r0 r' done ∧
      r' = { r with memory := r'.memory } ∧
      (∀ i, i < pos → r'.memory i = r.memory i) ∧
      ∀ i (hi : i < bytes.length), r'.memory (pos + i) = bytes[i] := by
  obtain ⟨memory, hmemory⟩ : ∃ memory : Nat → UInt8, memory = fun i =>
    if pos ≤ i ∧ i < pos + bytes.length then bytes.getD (i - pos) 0 else r.memory i := ⟨_, rfl⟩
  have hbelow : ∀ i, i < pos → memory i = r.memory i := by
    intro i hi
    rw [hmemory]
    exact if_neg (by omega)
  refine ⟨{ r with memory }, ?_, ⟨h.areaOffset, h.areaSize, h.expectedCount, h.writePos, h.fits,
    h.receivedCount, ?_⟩, rfl, hbelow, ?_⟩
  . rw [BigValueReceiver.write, if_pos hroom, hmemory]
  . intro l w l' hdone i hi
    rw [← h.stored l w l' hdone i hi]
    apply hbelow
    have := lt_alignedSize w.data.length
    rw [hdone, totalAlignedSize_append, totalAlignedSize_cons] at hpos
    omega
  . intro i hi
    have hin : pos ≤ pos + i ∧ pos + i < pos + bytes.length := by omega
    simp only [hmemory, if_pos hin, Nat.add_sub_cancel_left]
    rw [List.getD_eq_getElem?_getD, List.getElem?_eq_getElem hi, Option.getD_some]

theorem length_freeKey (size offset : Nat) : (freeKey size offset).length = FREE_KEY_SIZE := by
  rw [freeKey, List.length_append, List.length_reverse, length_toLittle, length_toLittle]
  rfl

/-- The header of a value is complete. -/
theorem InHeader.startValue (h : InHeader r0 r done v.header) :
    (r0.areaSize < totalAlignedSize (done ++ [v]) ∧ r.startValue = .error overflow) ∨
    ∃ r', r.startValue = .ok r' ∧ InData r0 r' done v 0 := by
  obtain ⟨hwire, hsize⟩ := ofLittle_header v
  rw [BigValueReceiver.startValue, h.headerBuf, hwire, hsize, h.writePos, h.areaSize]
  have htotal : totalAlignedSize (done ++ [v]) =
      totalAlignedSize done + alignedSize v.data.length := by simp
  by_cases hroom : r0.areaSize < totalAlignedSize done + alignedSize v.data.length
  . left
    exact ⟨htotal ▸ hroom, if_pos hroom⟩
  . right
    obtain ⟨key, hkey⟩ : ∃ key, key = freeKey (alignedSize v.data.length)
        (r.areaOffset + totalAlignedSize done |||
          if r.receivedCount + 1 < r.expectedCount then 1 else 0) := ⟨_, rfl⟩
    have hlen : key.length = FREE_KEY_SIZE := by rw [hkey, length_freeKey]
    have hle := lt_alignedSize v.data.length
    have harea := h.areaSize
    obtain ⟨r1, hwrite, hr1, heq, -, -⟩ := h.toReceived.write _ key (Nat.le_refl _)
      (by omega)
    have hoffsets : r1.offsets = r.offsets := by rw [heq]
    refine ⟨{ r1 with
      currentWireOffset := v.wireChunkOffset, currentSize := v.data.length, currentReceived := 0,
      parsingHeader := false
      offsets := (v.wireChunkOffset, r.areaOffset + totalAlignedSize done + FREE_KEY_SIZE) ::
        r1.offsets }, ?_, ⟨⟨hr1.areaOffset, hr1.areaSize, hr1.expectedCount, hr1.writePos, hr1.fits,
      hr1.receivedCount, hr1.stored⟩, rfl, rfl, rfl, ?_, ?_, ?_⟩⟩
    . rw [if_neg hroom]
      dsimp only
      rw [← hkey, hwrite]
      rfl
    . rw [htotal, hr1.areaSize]
      omega
    . intro i _ hi
      omega
    . rw [hoffsets, h.offsets, placesFrom_append, List.reverse_append, placesFrom, placesFrom,
        h.areaOffset, Nat.zero_add]
      rfl

/-- As many bytes of the value as there are. -/
theorem InData.receiveValue (h : InData r0 r done v n) (hn : n ≤ v.data.length) {ptr : List UInt8}
    (hptr : ptr.take (v.data.length - n) = (v.data.drop n).take ptr.length) :
    ∃ r', r.receiveValue ptr = .ok (r', min (v.data.length - n) ptr.length) ∧
      (v.data.length ≤ n + ptr.length → InHeader r0 r' (done ++ [v]) []) ∧
      (n + ptr.length < v.data.length → InData r0 r' done v (n + ptr.length)) := by
  obtain ⟨d, hd⟩ : ∃ d, d = min (v.data.length - n) ptr.length := ⟨_, rfl⟩
  have htake : ptr.take d = (v.data.drop n).take d := by
    have := congrArg (List.take d) hptr
    rw [List.take_take, List.take_take] at this
    rwa [Nat.min_eq_left (by omega), Nat.min_eq_left (by omega)] at this
  have hroom := h.room
  rw [totalAlignedSize_append, totalAlignedSize_cons, totalAlignedSize_nil] at hroom
  have hle := lt_alignedSize v.data.length
  -- the bytes are written, if there are any
  obtain ⟨r1, hwritten, hr1, heq, hmemory⟩ : ∃ r1,
      (if 0 < d then
        (r.write (r.writePos + FREE_KEY_SIZE + r.currentReceived) (ptr.take d)).map fun r =>
          { r with currentReceived := r.currentReceived + d }
      else .ok r) = (.ok r1 : Except BigValueFault BigValueReceiver) ∧ Received r0 r1 done ∧
      r1 = { r with memory := r1.memory, currentReceived := n + d } ∧
      ∀ i (hi : i < v.data.length), i < n + d →
        r1.memory (totalAlignedSize done + FREE_KEY_SIZE + i) = v.data[i] := by
    by_cases hpos : 0 < d
    . have hlen : (ptr.take d).length = d := by
        rw [List.length_take]
        omega
      obtain ⟨r1, hwrite, hr1, heq, hbelow, hnew⟩ := h.toReceived.write
        (totalAlignedSize done + FREE_KEY_SIZE + n) (ptr.take d) (by omega) (by omega)
      refine ⟨{ r1 with currentReceived := r1.currentReceived + d }, ?_, ⟨hr1.areaOffset,
        hr1.areaSize, hr1.expectedCount, hr1.writePos, hr1.fits, hr1.receivedCount, hr1.stored⟩,
        ?_, ?_⟩
      . rw [if_pos hpos, h.writePos, h.currentReceived, hwrite]
        rfl
      . rw [heq]
        simp only [h.currentReceived]
      . intro i hi hlt
        by_cases hold : i < n
        . exact (hbelow _ (by omega)).trans (h.partly i hi hold)
        . have hget := hnew (i - n) (by omega)
          have hidx : totalAlignedSize done + FREE_KEY_SIZE + n + (i - n) =
              totalAlignedSize done + FREE_KEY_SIZE + i := by omega
          rw [hidx] at hget
          refine hget.trans ?_
          simp only [htake, List.getElem_take, List.getElem_drop]
          congr 1
          omega
    . have hzero : d = 0 := by omega
      refine ⟨r, if_neg hpos, h.toReceived, ?_, ?_⟩
      . rw [hzero, Nat.add_zero, ← h.currentReceived]
      . intro i hi hlt
        exact h.partly i hi (by omega)
  have hsize : r1.currentSize = v.data.length := by rw [heq]; exact h.currentSize
  have hreceived : r1.currentReceived = n + d := by rw [heq]
  have hoffsets : r1.offsets = (placesFrom r0.areaOffset 0 (done ++ [v])).reverse := by
    rw [heq]
    exact h.offsets
  refine ⟨if r1.currentSize ≤ r1.currentReceived then
      { r1 with
        writePos := r1.writePos + alignedSize r1.currentSize, receivedCount := r1.receivedCount + 1,
        headerBuf := [], parsingHeader := true }
    else r1, ?_, ?_, ?_⟩
  . rw [BigValueReceiver.receiveValue, h.currentSize, h.currentReceived, ← hd, ← h.currentReceived]
    rw [hwritten]
    simp only [Except.map]
    split <;> rfl
  . intro hcomplete
    rw [if_pos (by omega)]
    refine ⟨⟨hr1.areaOffset, hr1.areaSize, hr1.expectedCount, ?_, ?_, ?_, ?_⟩, rfl, rfl, hoffsets⟩
    . simp only [hr1.writePos, hsize, totalAlignedSize_append, totalAlignedSize_cons,
        totalAlignedSize_nil, Nat.add_zero]
    . have := h.room
      rw [h.areaSize, ← hr1.areaSize] at this
      exact this
    . simp only [hr1.receivedCount, List.length_append, List.length_singleton]
    . intro l w l' hsplit i hi
      rcases List.eq_nil_or_concat' l' with rfl | ⟨l', w', rfl⟩
      . obtain ⟨rfl, hlast⟩ := List.append_inj' hsplit rfl
        cases hlast
        exact hmemory i hi (by omega)
      . have hdone : done = l ++ w :: l' := by
          rw [← List.cons_append, ← List.append_assoc] at hsplit
          exact (List.append_inj' hsplit rfl).1
        exact hr1.stored l w l' hdone i hi
  . intro hshort
    rw [if_neg (by omega)]
    have hdlen : d = ptr.length := by omega
    refine ⟨hr1, ?_, hsize, ?_, ?_, ?_, hoffsets⟩
    . rw [heq]
      exact h.parsing
    . rw [hreceived, hdlen]
    . have := h.room
      rwa [h.areaSize, ← hr1.areaSize] at this
    . rw [← hdlen]
      exact hmemory

/-- Where the receiver is after the payload `p`, or what is wrong with the area. -/
def Proceeds (r0 : BigValueReceiver) (done rest : List PendingBigValue) (q : List UInt8)
    (result : Except BigValueFault (BigValueReceiver × Nat)) : Prop :=
  (∃ r' delta done' rest' k, result = .ok (r', delta) ∧ At r0 r' done' rest' k ∧
    done' ++ rest' = done ++ rest ∧ (streamOf rest').drop k = q) ∨
  (r0.areaSize < totalAlignedSize (done ++ rest) ∧ result = .error overflow)

/-- The rest of a round of the loop, and the rounds behind it. -/
theorem InData.proceeds {l : List PendingBigValue} {ptr q : List UInt8} {fuel : Nat} (delta : Nat)
    (h : InData r0 r done v n) (hn : n ≤ v.data.length)
    (hrest : v.data.drop n ++ streamOf l = ptr ++ q)
    (hfuel : ptr.length - (v.data.length - n) < fuel)
    (ih : ∀ {r done rest k p} delta, At r0 r done rest k → (streamOf rest).drop k = p ++ q →
      p.length < fuel → Proceeds r0 done rest q (dataLoop fuel r p delta)) :
    Proceeds r0 done (v :: l) q
      ((r.receiveValue ptr).bind fun x => dataLoop fuel x.1 (ptr.drop x.2) (delta + x.2)) := by
  have htake : ptr.take (v.data.length - n) = (v.data.drop n).take ptr.length := by
    have hlen : (v.data.drop n).length = v.data.length - n := List.length_drop
    rcases Nat.le_total ptr.length (v.data.length - n) with hle | hle
    . have := congrArg (List.take ptr.length) hrest
      rw [List.take_left, List.take_append_of_le_length (by omega)] at this
      rw [List.take_of_length_le hle, this]
    . have := congrArg (List.take (v.data.length - n)) hrest
      rw [List.take_append_of_le_length (by omega), List.take_append_of_le_length hle] at this
      rw [← this, List.take_of_length_le (by omega), List.take_of_length_le (by omega)]
  obtain ⟨r', heq, hfull, hpart⟩ := h.receiveValue hn htake
  rw [heq]
  simp only [Except.bind]
  by_cases hcomplete : v.data.length ≤ n + ptr.length
  . -- the value is complete, the loop goes on with the next one
    have hmin : min (v.data.length - n) ptr.length = v.data.length - n := by omega
    have hnext : streamOf l = ptr.drop (v.data.length - n) ++ q := by
      have := congrArg (List.drop (v.data.length - n)) hrest
      rwa [List.drop_left' List.length_drop, List.drop_append_of_le_length (by omega)] at this
    have hstep := ih (k := 0) (delta + (v.data.length - n))
      ((hfull hcomplete).at_zero l) (by rw [List.drop_zero]; exact hnext)
      (by rw [List.length_drop]; omega)
    rw [hmin]
    unfold Proceeds at hstep ⊢
    rwa [List.append_assoc, List.singleton_append] at hstep
  . have hmin : min (v.data.length - n) ptr.length = ptr.length := by omega
    have hshort : n + ptr.length < v.data.length := by omega
    have hq : v.data.drop (n + ptr.length) ++ streamOf l = q := by
      have := congrArg (List.drop ptr.length) hrest
      rw [List.drop_left, List.drop_append_of_le_length (by rw [List.length_drop]; omega),
        List.drop_drop] at this
      exact this
    have hat : At r0 r' done (v :: l) (BIG_VALUE_DATA_HEADER_SIZE + (n + ptr.length)) :=
      Or.inr ⟨_, rfl, hshort, hpart hshort⟩
    rw [hmin]
    refine ih _ hat ?_ (by rw [List.length_drop]; omega)
    rw [List.drop_length, List.nil_append, drop_streamOf_data (Nat.le_of_lt hshort), hq]

/-- The receiver takes what is sent piece by piece, wherever the pieces end. -/
theorem At.dataLoop {rest : List PendingBigValue} {k fuel : Nat} {p q : List UInt8} (delta : Nat)
    (h : At r0 r done rest k) (hrest : (streamOf rest).drop k = p ++ q) (hfuel : p.length < fuel) :
    Proceeds r0 done rest q (dataLoop fuel r p delta) := by
  induction fuel generalizing r done rest k p delta with
  | zero => exact absurd hfuel (Nat.not_lt_zero _)
  | succ fuel ih =>
    rw [BigValueReceiver.dataLoop]
    by_cases hnil : p = []
    . rw [if_pos hnil]
      rw [hnil, List.nil_append] at hrest
      exact Or.inl ⟨r, delta, done, rest, k, rfl, h, rfl, hrest⟩
    rw [if_neg hnil]
    have hlen := List.length_pos_iff.mpr hnil
    match rest with
    | [] =>
      rw [streamOf_nil, List.drop_nil] at hrest
      exact absurd (List.append_eq_nil_iff.mp hrest.symm).1 hnil
    | v :: l =>
      have hheader := length_header v
      rcases h with ⟨hk, h⟩ | ⟨n, rfl, hn, h⟩
      . -- in the header
        have hbuf : r.headerBuf.length = k := by
          rw [h.headerBuf, List.length_take]
          omega
        rw [drop_streamOf_header (Nat.le_of_lt hk)] at hrest
        have hdrop : (v.header.drop k).length = BIG_VALUE_DATA_HEADER_SIZE - k := by
          rw [List.length_drop, hheader]
        rw [if_pos h.parsing, hbuf]
        by_cases hshort : p.length < BIG_VALUE_DATA_HEADER_SIZE - k
        . -- the piece ends there as well
          have hp : p = (v.header.drop k).take p.length := by
            have := congrArg (List.take p.length) hrest
            rw [List.take_left, List.take_append_of_le_length (by omega)] at this
            exact this.symm
          have hq : v.header.drop (k + p.length) ++ (v.data ++ streamOf l) = q := by
            have := congrArg (List.drop p.length) hrest
            rwa [List.drop_left, List.drop_append_of_le_length (by omega), List.drop_drop] at this
          have hmin : min (BIG_VALUE_DATA_HEADER_SIZE - k) p.length = p.length := by omega
          simp only [hmin, List.take_length]
          rw [if_pos (by rw [List.length_append, hbuf]; omega)]
          refine Or.inl ⟨_, delta, done, v :: l, k + p.length, rfl,
            Or.inl ⟨by omega, ⟨h.areaOffset, h.areaSize, h.expectedCount, h.writePos, h.fits,
              h.receivedCount, h.stored⟩, h.parsing, ?_, h.offsets⟩, rfl, ?_⟩
          . rw [h.headerBuf, List.take_add, ← hp]
          . rw [drop_streamOf_header (by omega), hq]
        . -- the header is complete
          have hp : p.take (BIG_VALUE_DATA_HEADER_SIZE - k) = v.header.drop k := by
            have := congrArg (List.take (BIG_VALUE_DATA_HEADER_SIZE - k)) hrest
            rw [List.take_left' hdrop, List.take_append_of_le_length (by omega)] at this
            exact this.symm
          have hq : v.data.drop 0 ++ streamOf l =
              p.drop (BIG_VALUE_DATA_HEADER_SIZE - k) ++ q := by
            have := congrArg (List.drop (BIG_VALUE_DATA_HEADER_SIZE - k)) hrest
            rwa [List.drop_left' hdrop, List.drop_append_of_le_length (by omega)] at this
          have hmin : min (BIG_VALUE_DATA_HEADER_SIZE - k) p.length =
              BIG_VALUE_DATA_HEADER_SIZE - k := by omega
          have hfullbuf : r.headerBuf ++ p.take (BIG_VALUE_DATA_HEADER_SIZE - k) = v.header := by
            rw [h.headerBuf, hp, List.take_append_drop]
          simp only [hmin, hfullbuf]
          rw [if_neg (by omega)]
          have hr : InHeader r0 { r with headerBuf := v.header } done v.header :=
            ⟨⟨h.areaOffset, h.areaSize, h.expectedCount, h.writePos, h.fits, h.receivedCount,
              h.stored⟩, h.parsing, rfl, h.offsets⟩
          rcases hr.startValue with ⟨htight, herr⟩ | ⟨r', hok, hdata⟩
          . rw [herr]
            refine Or.inr ⟨?_, rfl⟩
            simp only [totalAlignedSize_append, totalAlignedSize_cons,
              totalAlignedSize_nil] at htight ⊢
            omega
          . rw [hok]
            refine hdata.proceeds delta (Nat.zero_le _) hq ?_ fun d => ih d
            rw [List.length_drop]
            omega
      . -- in the data
        have hparsing : ¬ r.parsingHeader = true := by rw [h.parsing]; decide
        rw [drop_streamOf_data (Nat.le_of_lt hn)] at hrest
        rw [if_neg hparsing]
        exact h.proceeds delta (Nat.le_of_lt hn) hrest (by omega) fun d => ih d

/-- `handle_data`: where the receiver is then, and whether it has everything that it expects. -/
theorem At.handleData {rest : List PendingBigValue} {k : Nat} {p q : List UInt8}
    (h : At r0 r done rest k) (hrest : (streamOf rest).drop k = p ++ q) :
    (∃ r' delta done' rest' k',
      r.handleData p = .ok (r', delta, decide (r0.expectedCount ≤ done'.length)) ∧
      At r0 r' done' rest' k' ∧ done' ++ rest' = done ++ rest ∧ (streamOf rest').drop k' = q) ∨
    (r0.areaSize < totalAlignedSize (done ++ rest) ∧ r.handleData p = .error overflow) := by
  unfold BigValueReceiver.handleData
  rcases h.dataLoop 0 hrest (Nat.lt_succ_self p.length) with
    ⟨r', delta, done', rest', k', heq, hat, hsplit, hq⟩ | ⟨htight, herr⟩
  . left
    have hr := hat.received
    refine ⟨r', delta, done', rest', k', ?_, hat, hsplit, hq⟩
    rw [heq, ← hr.expectedCount, ← hr.receivedCount]
    rfl
  . right
    rw [herr]
    exact ⟨htight, rfl⟩

end Steps

end BigValueReceiver

namespace BigValueSender

/-- The sender has `k` bytes of what it sends for `rest` behind it. -/
def Sends (s : BigValueSender) : List PendingBigValue → Nat → Prop
  | [], k => k = 0
  | v :: _, k =>
    k < BIG_VALUE_DATA_HEADER_SIZE ∧ s.headerSent = false ∧ s.headerBytesSent = k ∨
    ∃ n, k = BIG_VALUE_DATA_HEADER_SIZE + n ∧ n < v.data.length ∧ s.headerSent = true ∧
      s.currentOffset = n

/-- The chunk takes of `bytes` what there is space for, the sender goes on with what is left. -/
def Cut (limit : Nat) (chunk bytes : List UInt8) (result : List UInt8 × BigValueSender) : Prop :=
  ∃ k, result.1 = chunk ++ bytes.take (limit - chunk.length) ∧
    result.2.Sends result.2.bigValues k ∧
    (streamOf result.2.bigValues).drop k = bytes.drop (limit - chunk.length)

theorem Cut.prepend {limit : Nat} {chunk front bytes : List UInt8}
    {result : List UInt8 × BigValueSender} (hfront : front.length ≤ limit - chunk.length)
    (h : Cut limit (chunk ++ front) bytes result) : Cut limit chunk (front ++ bytes) result := by
  obtain ⟨k, hchunk, hsends, hdrop⟩ := h
  have hspace : limit - (chunk ++ front).length = limit - chunk.length - front.length := by
    rw [List.length_append]
    omega
  rw [hspace] at hchunk hdrop
  refine ⟨k, ?_, hsends, ?_⟩
  . rw [hchunk, List.append_assoc, List.take_append, List.take_of_length_le hfront]
  . rw [hdrop, List.drop_append, List.drop_of_length_le hfront, List.nil_append]

section Steps

variable (limit : Nat) {v : PendingBigValue} {l : List PendingBigValue} {s : BigValueSender}
  (chunk : List UInt8)

/-- The data of a value, and the values behind it. -/
theorem cut_data {n : Nat} (hn : n ≤ v.data.length) (hsent : s.headerSent = true)
    (hoffset : s.currentOffset = n)
    (ih : ∀ {s k} chunk, Sends s l k →
      Cut limit chunk ((streamOf l).drop k) (chunkLoop limit l s chunk)) :
    Cut limit chunk (v.data.drop n ++ streamOf l)
      (let dataToSend := min (v.data.length - s.currentOffset) (limit - chunk.length)
        let chunk := chunk ++ (v.data.drop s.currentOffset).take dataToSend
        let currentOffset := s.currentOffset + dataToSend
        if v.data.length ≤ currentOffset then
          chunkLoop limit l
            { s with currentOffset := 0, headerSent := false, headerBytesSent := 0 } chunk
        else (chunk, { s with bigValues := v :: l, currentOffset })) := by
  have hlen : (v.data.drop n).length = v.data.length - n := List.length_drop
  rw [hoffset]
  dsimp only
  by_cases hspace : v.data.length - n ≤ limit - chunk.length
  . -- the value is sent to its end
    rw [Nat.min_eq_left hspace, if_pos (by omega), List.take_of_length_le (by omega)]
    apply Cut.prepend (by omega)
    have hnext : Sends
        { s with currentOffset := 0, headerSent := false, headerBytesSent := 0 } l 0 := by
      cases l with
      | nil => rfl
      | cons w l => exact Or.inl ⟨by decide, rfl, rfl⟩
    have := ih (chunk ++ v.data.drop n) hnext
    rwa [List.drop_zero] at this
  . -- the value goes on in the next chunk
    rw [Nat.min_eq_right (by omega), if_neg (by omega)]
    refine ⟨BIG_VALUE_DATA_HEADER_SIZE + (n + (limit - chunk.length)), ?_,
      Or.inr ⟨_, rfl, by omega, hsent, rfl⟩, ?_⟩
    . rw [List.take_append_of_le_length (by omega)]
    . rw [drop_streamOf_data (by omega), List.drop_append_of_le_length (by omega), List.drop_drop]

/-- A chunk has the next bytes, as many as the limit lets it have. -/
theorem cut_chunkLoop {k : Nat} (h : Sends s l k) :
    Cut limit chunk ((streamOf l).drop k) (chunkLoop limit l s chunk) := by
  induction l generalizing s chunk k with
  | nil =>
    rw [streamOf_nil, List.drop_nil, chunkLoop]
    exact ⟨0, by simp, rfl, by simp⟩
  | cons v l ih =>
    rw [chunkLoop]
    by_cases hfull : limit ≤ chunk.length
    . rw [if_pos hfull]
      have hzero : limit - chunk.length = 0 := by omega
      refine ⟨k, ?_, h, ?_⟩
      . rw [hzero, List.take_zero, List.append_nil]
      . rw [hzero, List.drop_zero]
    rw [if_neg hfull]
    have hheader := length_header v
    rcases h with ⟨hk, hsent, hbytes⟩ | ⟨n, rfl, hn, hsent, hoffset⟩
    . have hdrop : (v.header.drop k).length = BIG_VALUE_DATA_HEADER_SIZE - k := by
        rw [List.length_drop, hheader]
      rw [drop_streamOf_header (Nat.le_of_lt hk), sendHeader, hsent, hbytes]
      dsimp only
      rw [if_neg (by decide)]
      by_cases hspace : limit - chunk.length < BIG_VALUE_DATA_HEADER_SIZE - k
      . -- the header does not fit
        rw [Nat.min_eq_right (Nat.le_of_lt hspace), if_pos hspace]
        refine ⟨k + (limit - chunk.length), ?_, Or.inl ⟨by omega, rfl, rfl⟩, ?_⟩
        . rw [List.take_append_of_le_length (by omega)]
        . rw [drop_streamOf_header (by omega), List.drop_append_of_le_length (by omega),
            List.drop_drop]
      . rw [Nat.min_eq_left (by omega), if_neg (Nat.lt_irrefl _),
          List.take_of_length_le (by omega)]
        apply Cut.prepend (by omega)
        have := cut_data limit (chunk ++ v.header.drop k) (v := v)
          (s := { s with headerSent := true, headerBytesSent := 0, currentOffset := 0 })
          (Nat.zero_le _) rfl rfl fun chunk => ih chunk
        rwa [List.drop_zero] at this
    . rw [drop_streamOf_data (Nat.le_of_lt hn), sendHeader, if_pos hsent]
      exact cut_data limit chunk (Nat.le_of_lt hn) hsent hoffset fun chunk => ih chunk

end Steps

end BigValueSender

/-- A position in the first value is not behind everything. -/
theorem drop_streamOf_ne_nil {v : PendingBigValue} {l : List PendingBigValue} {k : Nat}
    (hk : k < BIG_VALUE_DATA_HEADER_SIZE + v.data.length) : (streamOf (v :: l)).drop k ≠ [] := by
  intro h
  have hlen := congrArg List.length h
  have hheader := length_header v
  rw [List.length_drop, streamOf_cons, List.length_append, List.length_append,
    List.length_nil] at hlen
  omega

/-- `bytes` is still to be sent, and still to be received. -/
structure InSync (r0 : BigValueReceiver) (bigValues : List PendingBigValue) (bytes : List UInt8)
    (s : BigValueSender) (r : BigValueReceiver) : Prop where
  sends : ∃ k, s.Sends s.bigValues k ∧ (streamOf s.bigValues).drop k = bytes
  receives : ∃ done rest k, BigValueReceiver.At r0 r done rest k ∧ done ++ rest = bigValues ∧
    (streamOf rest).drop k = bytes

namespace InSync

variable {limit : Nat} {r0 r : BigValueReceiver} {bigValues : List PendingBigValue}
  {bytes : List UInt8} {s : BigValueSender}

theorem sent (h : InSync r0 bigValues [] s r) : s.bigValues = [] := by
  obtain ⟨k, hsends, hdrop⟩ := h.sends
  generalize s.bigValues = l at hsends hdrop ⊢
  cases l with
  | nil => rfl
  | cons v l =>
    refine absurd hdrop (drop_streamOf_ne_nil ?_)
    rcases hsends with ⟨hk, -⟩ | ⟨n, rfl, hn, -⟩
    . omega
    . omega

theorem bytes_nil (h : InSync r0 bigValues bytes s r) (hsent : s.bigValues = []) : bytes = [] := by
  obtain ⟨k, -, hdrop⟩ := h.sends
  rw [hsent, streamOf_nil, List.drop_nil] at hdrop
  exact hdrop.symm

/-- What is left of the values when nothing is left of the bytes. -/
theorem rest_nil {done rest : List PendingBigValue} {k : Nat}
    (h : BigValueReceiver.At r0 r done rest k) : (streamOf rest).drop k = [] ↔ rest = [] := by
  constructor
  . intro hdrop
    cases rest with
    | nil => rfl
    | cons v l =>
      refine absurd hdrop (drop_streamOf_ne_nil ?_)
      rcases h with ⟨hk, -⟩ | ⟨n, rfl, hn, -⟩
      . omega
      . omega
  . intro hrest
    rw [hrest, streamOf_nil, List.drop_nil]

theorem received (h : InSync r0 bigValues [] s r) : r0.InHeader r bigValues [] := by
  obtain ⟨done, rest, k, hat, hsplit, hdrop⟩ := h.receives
  have hrest := (rest_nil hat).mp hdrop
  rw [hrest] at hat hsplit
  rw [List.append_nil] at hsplit
  rw [← hsplit]
  exact hat.2

/-- One chunk is sent and received. -/
theorem step (limit : Nat) (h : InSync r0 bigValues bytes s r) :
    (∃ r' delta allReceived,
      r.handleData (s.sendChunk limit).1 = .ok (r', delta, allReceived) ∧
      InSync r0 bigValues (bytes.drop limit) (s.sendChunk limit).2 r' ∧
      (r0.expectedCount = bigValues.length → (allReceived = true ↔ bytes.drop limit = []))) ∨
    (r0.areaSize < totalAlignedSize bigValues ∧
      r.handleData (s.sendChunk limit).1 = .error BigValueReceiver.overflow) := by
  obtain ⟨k, hsends, hbytes⟩ := h.sends
  obtain ⟨done, rest, j, hat, hsplit, hrest⟩ := h.receives
  obtain ⟨k', hchunk, hsends', hdrop⟩ :=
    BigValueSender.cut_chunkLoop limit [] hsends
  rw [List.nil_append, List.length_nil, Nat.sub_zero, hbytes] at hchunk
  rw [List.length_nil, Nat.sub_zero, hbytes] at hdrop
  have hcut : (streamOf rest).drop j = (s.sendChunk limit).1 ++ bytes.drop limit := by
    rw [BigValueSender.sendChunk, hchunk, List.take_append_drop, hrest]
  rcases hat.handleData hcut with ⟨r', delta, done', rest', j', heq, hat', hsplit', hrest'⟩ |
    ⟨htight, herr⟩
  . left
    refine ⟨r', delta, _, heq, ⟨⟨k', hsends', hdrop⟩, done', rest', j', hat', ?_, hrest'⟩, ?_⟩
    . rw [hsplit', hsplit]
    . intro hcount
      have hnil := rest_nil hat'
      rw [hrest'] at hnil
      rw [decide_eq_true_iff, hnil, hcount, ← hsplit, ← hsplit', List.length_append]
      constructor
      . intro hle
        exact List.length_eq_zero_iff.mp (by omega)
      . intro h0
        rw [h0, List.length_nil]
        omega
  . right
    rw [hsplit] at htight
    exact ⟨htight, herr⟩

/-- However many chunks have gone through, both sides are still in step. -/
theorem run {n : Nat} (h : InSync r0 bigValues bytes s r) {flags : List Bool} {s' : BigValueSender}
    {r' : BigValueReceiver} (hrun : streamRounds limit n s r = .ok (flags, s', r')) :
    InSync r0 bigValues (bytes.drop (n * limit)) s' r' := by
  induction n generalizing s r bytes flags with
  | zero =>
    rw [streamRounds] at hrun
    injection hrun with hrun
    cases hrun
    rwa [Nat.zero_mul, List.drop_zero]
  | succ n ih =>
    rw [streamRounds] at hrun
    dsimp only at hrun
    rcases h.step limit with ⟨r1, delta, allReceived, heq, hstep, -⟩ | ⟨-, herr⟩
    . rw [heq] at hrun
      simp only [Except.bind] at hrun
      match hrest : streamRounds limit n (s.sendChunk limit).2 r1 with
      | .error e =>
        rw [hrest] at hrun
        exact absurd hrun (by simp [Except.map])
      | .ok (flags', s1, r2) =>
        rw [hrest] at hrun
        simp only [Except.map, Except.ok.injEq, Prod.mk.injEq] at hrun
        obtain ⟨-, rfl, rfl⟩ := hrun
        have := ih hstep hrest
        rwa [List.drop_drop, Nat.add_comm, ← Nat.succ_mul] at this
    . rw [herr] at hrun
      exact absurd hrun (by simp [Except.bind])

/-- With space for the values every chunk goes through, the last one is the one that completes. -/
theorem finishes (h : InSync r0 bigValues bytes s r) (hlimit : 0 < limit)
    (hfits : totalAlignedSize bigValues ≤ r0.areaSize) (hcount : r0.expectedCount = bigValues.length)
    (hbytes : bytes ≠ []) :
    ∃ n s' r', streamRounds limit (n + 1) s r = .ok (List.replicate n false ++ [true], s', r') ∧
      InSync r0 bigValues [] s' r' := by
  generalize hlen : bytes.length = count
  induction count using Nat.strongRecOn generalizing bytes s r with
  | ind count ih =>
    rcases h.step limit with ⟨r1, delta, allReceived, heq, hstep, hall⟩ | ⟨htight, -⟩
    . have hflag := hall hcount
      by_cases hend : bytes.drop limit = []
      . have htrue : allReceived = true := hflag.mpr hend
        rw [hend] at hstep
        refine ⟨0, (s.sendChunk limit).2, r1, ?_, hstep⟩
        rw [streamRounds]
        dsimp only
        rw [heq, htrue]
        rfl
      . have hfalse : allReceived = false := by
          cases allReceived with
          | false => rfl
          | true => exact absurd (hflag.mp rfl) hend
        have hpos := List.length_pos_iff.mpr hbytes
        have hless : (bytes.drop limit).length < count := by
          rw [List.length_drop]
          omega
        obtain ⟨n, s', r', hrun, hdone⟩ := ih _ hless hstep hend rfl
        refine ⟨n + 1, s', r', ?_, hdone⟩
        rw [streamRounds]
        dsimp only
        rw [heq, hfalse]
        simp only [Except.bind]
        rw [hrun, List.replicate_succ]
        rfl
    . omega

end InSync

theorem mem_placesFrom {areaOffset pos : Nat} {l : List PendingBigValue} {x : Nat × Nat}
    (h : x ∈ placesFrom areaOffset pos l) :
    ∃ before v after, l = before ++ v :: after ∧ x = (v.wireChunkOffset,
      areaOffset + (pos + totalAlignedSize before) + FREE_KEY_SIZE) := by
  induction l generalizing pos with
  | nil => cases h
  | cons v l ih =>
    rw [placesFrom, List.mem_cons] at h
    rcases h with rfl | h
    . exact ⟨[], v, l, rfl, rfl⟩
    . obtain ⟨before, w, after, rfl, rfl⟩ := ih h
      refine ⟨v :: before, w, after, rfl, ?_⟩
      rw [totalAlignedSize_cons, ← Nat.add_assoc pos]

theorem exists_mem_placesFrom (areaOffset pos : Nat) {l : List PendingBigValue}
    {v : PendingBigValue} (h : v ∈ l) :
    ∃ x ∈ placesFrom areaOffset pos l, x.1 = v.wireChunkOffset := by
  induction l generalizing pos with
  | nil => cases h
  | cons w l ih =>
    rw [placesFrom]
    rcases List.mem_cons.mp h with rfl | h
    . exact ⟨_, List.mem_cons_self, rfl⟩
    . obtain ⟨x, hx, heq⟩ := ih (pos + alignedSize w.data.length) h
      exact ⟨x, List.mem_cons_of_mem _ hx, heq⟩

namespace BigValueReceiver

/-- An offset stands for one value, so it does not matter which entry of the map came last. -/
theorem InHeader.holds {r0 r : BigValueReceiver} {bigValues : List PendingBigValue}
    {buf : List UInt8} (h : InHeader r0 r bigValues buf)
    (hsame : ∀ v ∈ bigValues, ∀ w ∈ bigValues, v.wireChunkOffset = w.wireChunkOffset → v = w)
    {v : PendingBigValue} (hv : v ∈ bigValues) : r.Holds v := by
  obtain ⟨y, hy, hyoffset⟩ := exists_mem_placesFrom r0.areaOffset 0 hv
  match hfind : r.offsets.find? fun x => x.1 = v.wireChunkOffset with
  | none =>
    rw [List.find?_eq_none, h.offsets] at hfind
    exact absurd (decide_eq_true hyoffset) (hfind y (List.mem_reverse.mpr hy))
  | some x =>
    have hmem := List.mem_of_find?_eq_some hfind
    have hoffset : x.1 = v.wireChunkOffset := by simpa using List.find?_some hfind
    rw [h.offsets, List.mem_reverse] at hmem
    obtain ⟨before, w, after, hsplit, rfl⟩ := mem_placesFrom hmem
    have hw : w ∈ bigValues := by
      rw [hsplit]
      exact List.mem_append_right _ List.mem_cons_self
    have hvw := hsame w hw v hv hoffset
    subst hvw
    have hfits := h.fits
    have haligned := lt_alignedSize w.data.length
    rw [hsplit, totalAlignedSize_append, totalAlignedSize_cons] at hfits
    rw [Nat.zero_add] at hfind
    refine ⟨r0.areaOffset + totalAlignedSize before + FREE_KEY_SIZE, by rw [place, hfind]; rfl,
      ?_, ?_, ?_⟩
    . rw [h.areaOffset]
      omega
    . rw [h.areaOffset]
      omega
    . intro i hi
      rw [h.areaOffset]
      have hpos : r0.areaOffset + totalAlignedSize before + FREE_KEY_SIZE - r0.areaOffset =
          totalAlignedSize before + FREE_KEY_SIZE := by omega
      rw [hpos]
      exact h.stored before w after hsplit i hi

/-- What an area has space for that is reserved for values of this aligned size. -/
def capacity (totalAlignedSize : Nat) : Nat :=
  if padding totalAlignedSize AREA_SIZE ≤ AREA_SIZE then AREA_SIZE
  else padding totalAlignedSize AREA_SIZE - AREA_HEADER_SIZE

theorem handleStart_startHeader (r : BigValueReceiver) (bigValues : List PendingBigValue)
    (area : Nat) :
    (∃ r0, r.handleStart (BigValueSender.startHeader bigValues) (some area) = .ok r0 ∧
      InHeader r0 r0 [] [] ∧ r0.expectedCount = bigValues.length % 2 ^ 32 ∧
      r0.areaSize = capacity (totalAlignedSize bigValues % 2 ^ 64) ∧
      totalAlignedSize bigValues % 2 ^ 64 ≤ r.maxSize ∧
      padding (totalAlignedSize bigValues % 2 ^ 64) AREA_SIZE < 2 ^ 32) ∨
    (∃ e, r.handleStart (BigValueSender.startHeader bigValues) (some area) = .error e) ∧
      (r.maxSize < totalAlignedSize bigValues % 2 ^ 64 ∨
        2 ^ 32 ≤ padding (totalAlignedSize bigValues % 2 ^ 64) AREA_SIZE) := by
  have hlen : (toLittle 4 bigValues.length).length = 4 := length_toLittle _ _
  have hlen8 : (toLittle 8 (totalAlignedSize bigValues)).length = 8 := length_toLittle _ _
  have hsize : (BigValueSender.startHeader bigValues).length = BIG_VALUE_START_HEADER_SIZE := by
    rw [BigValueSender.startHeader, List.length_append, hlen, hlen8]
    rfl
  have hcount : ofLittle ((BigValueSender.startHeader bigValues).take 4) =
      bigValues.length % 2 ^ 32 := by
    have hpow : 256 ^ 4 = 2 ^ 32 := by decide
    rw [BigValueSender.startHeader, List.take_left' hlen, ofLittle_toLittle, hpow]
  have htotal : ofLittle (((BigValueSender.startHeader bigValues).drop 4).take 8) =
      totalAlignedSize bigValues % 2 ^ 64 := by
    have hpow : 256 ^ 8 = 2 ^ 64 := by decide
    rw [BigValueSender.startHeader, List.drop_left' hlen, List.take_of_length_le (by omega),
      ofLittle_toLittle, hpow]
  rw [handleStart, hsize, hcount, htotal, if_neg (Nat.lt_irrefl _)]
  dsimp only
  generalize totalAlignedSize bigValues % 2 ^ 64 = total
  have hsmall : AREA_SIZE < 2 ^ 32 := by decide
  by_cases hmax : r.maxSize < total
  . right
    exact ⟨⟨_, if_pos hmax⟩, Or.inl hmax⟩
  rw [if_neg hmax]
  have hnone : ∀ l (v : PendingBigValue) l', [] ≠ l ++ v :: l' := by
    intro l v l' h
    exact List.cons_ne_nil _ _ (List.append_eq_nil_iff.mp h.symm).2
  by_cases hone : padding total AREA_SIZE ≤ AREA_SIZE
  . left
    rw [if_pos hone]
    refine ⟨_, rfl, ⟨⟨rfl, rfl, rfl, rfl, Nat.zero_le _, rfl, ?_⟩, rfl, rfl, rfl⟩, rfl, ?_,
      Nat.le_of_not_lt hmax, Nat.lt_of_le_of_lt hone hsmall⟩
    . intro l v l' h
      exact absurd h (hnone l v l')
    . exact (if_pos hone).symm
  rw [if_neg hone]
  by_cases hbig : 2 ^ 32 ≤ padding total AREA_SIZE
  . right
    exact ⟨⟨_, if_pos hbig⟩, Or.inr hbig⟩
  . left
    rw [if_neg hbig]
    refine ⟨_, rfl, ⟨⟨rfl, rfl, rfl, rfl, Nat.zero_le _, rfl, ?_⟩, rfl, rfl, rfl⟩, rfl, ?_,
      Nat.le_of_not_lt hmax, Nat.lt_of_not_le hbig⟩
    . intro l v l' h
      exact absurd h (hnone l v l')
    . rw [capacity, if_neg hone]
      simp only [Area.stop, Area.contentOffset]
      omega

/-- The header of the area has no space in an exact multiple of the area size. -/
theorem le_capacity (l : List PendingBigValue) :
    totalAlignedSize l ≤ capacity (totalAlignedSize l) ↔
      totalAlignedSize l ≤ AREA_SIZE ∨ totalAlignedSize l % AREA_SIZE ≠ 0 := by
  have hpages := totalAlignedSize_dvd l
  generalize totalAlignedSize l = total at hpages ⊢
  unfold capacity padding
  unfold MAX_PAGE_SIZE at hpages
  unfold AREA_SIZE AREA_HEADER_SIZE
  split <;> omega

end BigValueReceiver

section Sessions

variable {limit : Nat} {r : BigValueReceiver} {area : Nat} {bigValues : List PendingBigValue}

theorem BigValueSender.start_eq (hnil : bigValues ≠ []) : BigValueSender.start bigValues =
    some (BigValueSender.startHeader bigValues, ⟨bigValues, 0, false, 0⟩) :=
  if_neg hnil

theorem streamOf_ne_nil (hnil : bigValues ≠ []) : streamOf bigValues ≠ [] := by
  cases bigValues with
  | nil => exact absurd rfl hnil
  | cons v l => exact drop_streamOf_ne_nil (k := 0) (by unfold BIG_VALUE_DATA_HEADER_SIZE; omega)

/-- Before the first chunk. -/
theorem InSync.start {r0 : BigValueReceiver} (h : r0.InHeader r0 [] []) :
    InSync r0 bigValues (streamOf bigValues) ⟨bigValues, 0, false, 0⟩ r0 := by
  refine ⟨⟨0, ?_, rfl⟩, ⟨[], bigValues, 0, h.at_zero bigValues, rfl, rfl⟩⟩
  cases bigValues with
  | nil => rfl
  | cons v l => exact Or.inl ⟨by decide, rfl, rfl⟩

/-- What all went through has had space for itself. -/
theorem Streams.fits (h : Streams limit r area bigValues) (hnil : bigValues ≠ []) :
    0 < limit ∧ totalAlignedSize bigValues ≤ r.maxSize ∧
      padding (totalAlignedSize bigValues) AREA_SIZE < 2 ^ 32 ∧
      (totalAlignedSize bigValues ≤ AREA_SIZE ∨ totalAlignedSize bigValues % AREA_SIZE ≠ 0) := by
  obtain ⟨r0, n, s, r1, hhandle, hrun, hsent, -⟩ := h _ _ (BigValueSender.start_eq hnil)
  rcases r.handleStart_startHeader bigValues area with
    ⟨r0', hok, hinit, -, hcapacity, hmax, hbits⟩ | ⟨⟨e, herr⟩, -⟩
  . rw [hok] at hhandle
    cases hhandle
    have hdone := (InSync.start hinit).run hrun
    have hend := hdone.bytes_nil hsent
    rw [hend] at hdone
    have hfits := hdone.received.fits
    rw [hdone.received.areaSize, hcapacity] at hfits
    -- a size that does not fit into the header has no space in the area either
    have hsmall : totalAlignedSize bigValues % 2 ^ 64 = totalAlignedSize bigValues := by
      apply Nat.mod_eq_of_lt
      unfold BigValueReceiver.capacity AREA_SIZE at hfits
      unfold AREA_SIZE at hbits
      split at hfits
      . omega
      . omega
    rw [hsmall] at hfits hmax hbits
    refine ⟨?_, hmax, hbits, (BigValueReceiver.le_capacity bigValues).mp hfits⟩
    apply Nat.pos_of_ne_zero
    intro hzero
    rw [hzero, Nat.mul_zero, List.drop_zero] at hend
    exact streamOf_ne_nil hnil hend
  . rw [herr] at hhandle
    cases hhandle

/-- With space for all of them they go through. -/
theorem streams_of_fits
    (hsame : ∀ v ∈ bigValues, ∀ w ∈ bigValues, v.wireChunkOffset = w.wireChunkOffset → v = w)
    (hnil : bigValues ≠ []) (hlimit : 0 < limit) (hmax : totalAlignedSize bigValues ≤ r.maxSize)
    (hbits : padding (totalAlignedSize bigValues) AREA_SIZE < 2 ^ 32)
    (hmultiple : totalAlignedSize bigValues ≤ AREA_SIZE ∨
      totalAlignedSize bigValues % AREA_SIZE ≠ 0) : Streams limit r area bigValues := by
  intro message s0 hmessage
  rw [BigValueSender.start_eq hnil] at hmessage
  cases hmessage
  have hpadding := le_padding (a := totalAlignedSize bigValues) (b := AREA_SIZE) (by decide)
  have hsmall : totalAlignedSize bigValues % 2 ^ 64 = totalAlignedSize bigValues :=
    Nat.mod_eq_of_lt (by omega)
  rcases r.handleStart_startHeader bigValues area with
    ⟨r0, hok, hinit, hcount, hcapacity, -, -⟩ | ⟨-, hbad⟩
  . have hlength : bigValues.length % 2 ^ 32 = bigValues.length := by
      apply Nat.mod_eq_of_lt
      have := length_le_totalAlignedSize bigValues
      unfold MAX_PAGE_SIZE at this
      omega
    rw [hlength] at hcount
    rw [hsmall] at hcapacity
    have hfits := (BigValueReceiver.le_capacity bigValues).mpr hmultiple
    rw [← hcapacity] at hfits
    obtain ⟨n, s', r', hrun, hdone⟩ :=
      (InSync.start hinit).finishes hlimit hfits hcount (streamOf_ne_nil hnil)
    refine ⟨r0, n, s', r', hok, hrun, hdone.sent, ?_⟩
    intro v hv
    exact hdone.received.holds hsame hv
  . rw [hsmall] at hbad
    omega

/-- A value that has two areas with its header: the area has a header as well. -/
theorem not_streams_of_two_areas {v : PendingBigValue}
    (hsize : alignedSize v.data.length = 2 * AREA_SIZE) : ¬ Streams limit r area [v] := by
  intro h
  have hfits := (h.fits (List.cons_ne_nil _ _)).2.2.2
  rw [totalAlignedSize_cons, totalAlignedSize_nil, hsize] at hfits
  revert hfits
  decide

end Sessions

/-- Big values arrive unless they fill an area of the pool to its last byte. -/
theorem bigValues_stream (limit : Nat) (r : BigValueReceiver) (area : Nat)
    (bigValues : List PendingBigValue)
    (hsame : ∀ v ∈ bigValues, ∀ w ∈ bigValues, v.wireChunkOffset = w.wireChunkOffset → v = w) :
    Streams limit r area bigValues ↔
      bigValues = [] ∨ 0 < limit ∧ totalAlignedSize bigValues ≤ r.maxSize ∧
        padding (totalAlignedSize bigValues) AREA_SIZE < 2 ^ 32 ∧
        (totalAlignedSize bigValues ≤ AREA_SIZE ∨
          totalAlignedSize bigValues % AREA_SIZE ≠ 0) := by
  by_cases hnil : bigValues = []
  . constructor
    . intro _
      exact Or.inl hnil
    . intro _ message s0 hstart
      rw [BigValueSender.start, if_pos hnil] at hstart
      cases hstart
  constructor
  . intro h
    exact Or.inr (h.fits hnil)
  . intro h
    rcases h with h | ⟨hlimit, hmax, hbits, hmultiple⟩
    . exact absurd h hnil
    . exact streams_of_fits hsame hnil hlimit hmax hbits hmultiple

/-- Two values in chunks of seven bytes: no header and no value is in one piece. -/
theorem bigValues_stream_pair : Streams 7 (BigValueReceiver.init BigValueReceiver.DEFAULT_MAX_SIZE)
    0 [⟨4096, [1, 2, 3], by decide, by decide⟩, ⟨8192, [4, 5], by decide, by decide⟩] := by
  refine (bigValues_stream _ _ _ _ ?_).mpr (Or.inr ?_)
  . intro v hv w hw hoffset
    simp only [List.mem_cons, List.not_mem_nil, or_false] at hv hw
    rcases hv with rfl | rfl <;> rcases hw with rfl | rfl <;> simp at hoffset ⊢
  . decide

theorem bigValues_stream_multiple :
    ¬ Streams (1024 * 1024) (BigValueReceiver.init BigValueReceiver.DEFAULT_MAX_SIZE) 0
      [⟨4096, List.replicate (2 * AREA_SIZE - FREE_KEY_SIZE) 0, by decide,
        List.length_replicate.trans_lt (by decide)⟩] := by
  apply not_streams_of_two_areas
  exact (congrArg alignedSize List.length_replicate).trans (by decide)

end Leaves
