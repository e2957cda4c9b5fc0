import Leaves.Core.Util

/-!
Memory as bytes: reading and writing a part of it, copying, and the little-endian numbers that are
kept in it.
-/

namespace Leaves

/-- The bytes of an area slice, a node or a file. -/
abbrev Bytes := Nat → UInt8

namespace Bytes

def read (b : Bytes) (pos size : Nat) : List UInt8 := (List.range size).map fun i => b (pos + i)

def write (b : Bytes) (pos : Nat) (data : List UInt8) : Bytes := fun i =>
  if pos ≤ i ∧ i < pos + data.length then data.getD (i - pos) 0 else b i

/-- `memcpy` from other memory. -/
def memcpy (b : Bytes) (dst : Nat) (from_ : Bytes) (src size : Nat) : Bytes := fun i =>
  if dst ≤ i ∧ i < dst + size then from_ (src + (i - dst)) else b i

def memmove (b : Bytes) (dst src size : Nat) : Bytes := b.memcpy dst b src size

def u8 (b : Bytes) (pos : Nat) : Nat := (b pos).toNat

def u16 (b : Bytes) (pos : Nat) : Nat := ofLittle (b.read pos 2)

def u32 (b : Bytes) (pos : Nat) : Nat := ofLittle (b.read pos 4)

def u64 (b : Bytes) (pos : Nat) : Nat := ofLittle (b.read pos 8)

def setU8 (b : Bytes) (pos x : Nat) : Bytes := b.write pos [UInt8.ofNat x]

def setU16 (b : Bytes) (pos x : Nat) : Bytes := b.write pos (toLittle 2 x)

def setU32 (b : Bytes) (pos x : Nat) : Bytes := b.write pos (toLittle 4 x)

def setU64 (b : Bytes) (pos x : Nat) : Bytes := b.write pos (toLittle 8 x)

variable {b b' : Bytes}

theorem read_congr {pos size : Nat} (h : ∀ i, i < size → b (pos + i) = b' (pos + i)) :
    b.read pos size = b'.read pos size := by
  unfold read
  apply List.map_congr_left
  intro i hi
  apply h
  exact List.mem_range.1 hi

theorem length_read (pos size : Nat) : (b.read pos size).length = size := by
  rw [read, List.length_map, List.length_range]

theorem write_of_lt {pos i : Nat} {data : List UInt8} (h : i < pos) : b.write pos data i = b i := by
  unfold write
  rw [if_neg]
  omega

theorem write_of_le {pos i : Nat} {data : List UInt8} (h : pos + data.length ≤ i) :
    b.write pos data i = b i := by
  unfold write
  rw [if_neg]
  omega

theorem read_write (b : Bytes) (pos : Nat) (data : List UInt8) :
    (b.write pos data).read pos data.length = data := by
  unfold read
  apply List.ext_getElem
  . rw [List.length_map, List.length_range]
  . intro i hi hi'
    rw [List.getElem_map, List.getElem_range, write, if_pos (by omega), Nat.add_sub_cancel_left,
      List.getD_eq_getElem?_getD, List.getElem?_eq_getElem hi']
    rfl

/-- A read that a write does not meet. -/
theorem read_write_of_apart (b : Bytes) {pos at_ size : Nat} {data : List UInt8}
    (h : at_ + size ≤ pos ∨ pos + data.length ≤ at_) :
    (b.write pos data).read at_ size = b.read at_ size := by
  apply read_congr
  intro i hi
  rcases h with h | h
  . exact write_of_lt (by omega)
  . exact write_of_le (by omega)

theorem read_memcpy_of_apart (b from_ : Bytes) {dst src n at_ size : Nat}
    (h : at_ + size ≤ dst ∨ dst + n ≤ at_) :
    (b.memcpy dst from_ src n).read at_ size = b.read at_ size := by
  apply read_congr
  intro i hi
  unfold memcpy
  rw [if_neg]
  omega

/-- A read from what was copied. -/
theorem read_memcpy (b from_ : Bytes) {dst src n at_ size : Nat} (hle : dst ≤ at_)
    (hlt : at_ + size ≤ dst + n) :
    (b.memcpy dst from_ src n).read at_ size = from_.read (src + (at_ - dst)) size := by
  unfold read
  apply List.map_congr_left
  intro i hi
  have hi := List.mem_range.1 hi
  unfold memcpy
  rw [if_pos (by omega)]
  congr 1
  omega

theorem read_setU8 (b : Bytes) {pos x at_ size : Nat} (h : at_ + size ≤ pos ∨ pos + 1 ≤ at_) :
    (b.setU8 pos x).read at_ size = b.read at_ size := read_write_of_apart b h

theorem read_setU16 (b : Bytes) {pos x at_ size : Nat} (h : at_ + size ≤ pos ∨ pos + 2 ≤ at_) :
    (b.setU16 pos x).read at_ size = b.read at_ size := by
  apply read_write_of_apart
  rwa [length_toLittle]

theorem read_setU32 (b : Bytes) {pos x at_ size : Nat} (h : at_ + size ≤ pos ∨ pos + 4 ≤ at_) :
    (b.setU32 pos x).read at_ size = b.read at_ size := by
  apply read_write_of_apart
  rwa [length_toLittle]

theorem read_setU64 (b : Bytes) {pos x at_ size : Nat} (h : at_ + size ≤ pos ∨ pos + 8 ≤ at_) :
    (b.setU64 pos x).read at_ size = b.read at_ size := by
  apply read_write_of_apart
  rwa [length_toLittle]

/-! The numbers in what was copied, and in what was not. -/

theorem u32_memcpy (b from_ : Bytes) {dst src n at_ p : Nat} (hle : dst ≤ at_)
    (hlt : at_ + 4 ≤ dst + n) (heq : src + (at_ - dst) = p) :
    (b.memcpy dst from_ src n).u32 at_ = from_.u32 p := by
  unfold u32
  rw [read_memcpy b from_ hle hlt, heq]

theorem u64_memcpy (b from_ : Bytes) {dst src n at_ p : Nat} (hle : dst ≤ at_)
    (hlt : at_ + 8 ≤ dst + n) (heq : src + (at_ - dst) = p) :
    (b.memcpy dst from_ src n).u64 at_ = from_.u64 p := by
  unfold u64
  rw [read_memcpy b from_ hle hlt, heq]

theorem u32_memcpy_of_apart (b from_ : Bytes) {dst src n at_ : Nat}
    (h : at_ + 4 ≤ dst ∨ dst + n ≤ at_) : (b.memcpy dst from_ src n).u32 at_ = b.u32 at_ := by
  unfold u32
  rw [read_memcpy_of_apart b from_ h]

theorem u64_memcpy_of_apart (b from_ : Bytes) {dst src n at_ : Nat}
    (h : at_ + 8 ≤ dst ∨ dst + n ≤ at_) : (b.memcpy dst from_ src n).u64 at_ = b.u64 at_ := by
  unfold u64
  rw [read_memcpy_of_apart b from_ h]

theorem u32_setU32_of_apart (b : Bytes) {pos x at_ : Nat} (h : at_ + 4 ≤ pos ∨ pos + 4 ≤ at_) :
    (b.setU32 pos x).u32 at_ = b.u32 at_ := by
  unfold u32
  rw [read_setU32 b h]

theorem u64_setU32_of_apart (b : Bytes) {pos x at_ : Nat} (h : at_ + 8 ≤ pos ∨ pos + 4 ≤ at_) :
    (b.setU32 pos x).u64 at_ = b.u64 at_ := by
  unfold u64
  rw [read_setU32 b h]

theorem u32_setU8_of_apart (b : Bytes) {pos x at_ : Nat} (h : at_ + 4 ≤ pos ∨ pos + 1 ≤ at_) :
    (b.setU8 pos x).u32 at_ = b.u32 at_ := by
  unfold u32
  rw [read_setU8 b h]

theorem u64_setU8_of_apart (b : Bytes) {pos x at_ : Nat} (h : at_ + 8 ≤ pos ∨ pos + 1 ≤ at_) :
    (b.setU8 pos x).u64 at_ = b.u64 at_ := by
  unfold u64
  rw [read_setU8 b h]

theorem memcpy_of_lt {from_ : Bytes} {dst src n i : Nat} (h : i < dst) :
    b.memcpy dst from_ src n i = b i := by
  unfold memcpy
  rw [if_neg]
  omega

theorem memcpy_zero (b from_ : Bytes) (dst src : Nat) : b.memcpy dst from_ src 0 = b := by
  funext i
  unfold memcpy
  rw [if_neg]
  omega

theorem ofLittle_lt (bs : List UInt8) : ofLittle bs < 256 ^ bs.length := by
  induction bs with
  | nil => exact Nat.one_pos
  | cons x bs ih =>
    have hx := x.toNat_lt
    rw [ofLittle, List.length_cons, Nat.pow_succ]
    omega

theorem ofLittle_inj {bs bs' : List UInt8} (hlen : bs.length = bs'.length)
    (h : ofLittle bs = ofLittle bs') : bs = bs' := by
  induction bs generalizing bs' with
  | nil =>
    cases bs' with
    | nil => rfl
    | cons _ _ => cases hlen
  | cons x bs ih =>
    cases bs' with
    | nil => cases hlen
    | cons x' bs' =>
      have hx := x.toNat_lt
      have hx' := x'.toNat_lt
      rw [ofLittle, ofLittle] at h
      have hhead : x = x' := UInt8.toNat_inj.1 (by omega)
      have htail : bs = bs' := by
        apply ih
        . exact Nat.succ.inj hlen
        . omega
      rw [hhead, htail]

/-- The bytes of a read that is the same. -/
theorem eq_of_read {pos n i : Nat} (h : b.read pos n = b'.read pos n) (hle : pos ≤ i)
    (hlt : i < pos + n) : b i = b' i := by
  have hget := congrArg (fun l => l[i - pos]?) h
  simp only [read, List.getElem?_map] at hget
  rw [List.getElem?_range (by omega)] at hget
  simp only [Option.map_some, Option.some_inj] at hget
  rwa [Nat.add_sub_cancel' hle] at hget

/-- The bytes of a number that is the same. -/
theorem eq_of_ofLittle {pos n i : Nat} (h : ofLittle (b.read pos n) = ofLittle (b'.read pos n))
    (hle : pos ≤ i) (hlt : i < pos + n) : b i = b' i := by
  apply eq_of_read _ hle hlt
  apply ofLittle_inj _ h
  rw [length_read, length_read]

theorem u32_lt (pos : Nat) : b.u32 pos < 2 ^ 32 := by
  have h := ofLittle_lt (b.read pos 4)
  rwa [length_read] at h

theorem u8_eq (pos : Nat) : b.u8 pos = ofLittle (b.read pos 1) := by
  change (b pos).toNat = (b (pos + 0)).toNat + 256 * 0
  rw [Nat.mul_zero, Nat.add_zero, Nat.add_zero]

theorem u8_setU8 {pos x : Nat} (h : x < 256) : (b.setU8 pos x).u8 pos = x := by
  have hread := read_write b pos [UInt8.ofNat x]
  rw [u8_eq, setU8]
  rw [List.length_singleton] at hread
  rw [hread, ofLittle, ofLittle, Nat.mul_zero, Nat.add_zero, UInt8.toNat_ofNat_of_lt' h]

/-- Writing what is there. -/
theorem setU8_self {pos x : Nat} (h : b.u8 pos = x) : b.setU8 pos x = b := by
  funext i
  by_cases heq : i = pos
  . have hx : UInt8.ofNat x = b pos := by
      rw [← h]
      exact UInt8.ofNat_toNat
    rw [heq, setU8, write, if_pos (by simp), Nat.sub_self]
    exact hx
  . rw [setU8]
    rcases Nat.lt_or_gt_of_ne heq with hlt | hgt
    . exact write_of_lt hlt
    . exact write_of_le hgt

theorem u16_setU16 {pos x : Nat} (h : x < 2 ^ 16) : (b.setU16 pos x).u16 pos = x := by
  have hread := read_write b pos (toLittle 2 x)
  rw [length_toLittle] at hread
  rw [u16, setU16, hread, ofLittle_toLittle]
  exact Nat.mod_eq_of_lt h

theorem u32_setU32 {pos x : Nat} (h : x < 2 ^ 32) : (b.setU32 pos x).u32 pos = x := by
  have hread := read_write b pos (toLittle 4 x)
  rw [length_toLittle] at hread
  rw [u32, setU32, hread, ofLittle_toLittle]
  exact Nat.mod_eq_of_lt h

theorem u64_setU64 {pos x : Nat} (h : x < 2 ^ 64) : (b.setU64 pos x).u64 pos = x := by
  have hread := read_write b pos (toLittle 8 x)
  rw [length_toLittle] at hread
  rw [u64, setU64, hread, ofLittle_toLittle]
  exact Nat.mod_eq_of_lt h

end Bytes
end Leaves
