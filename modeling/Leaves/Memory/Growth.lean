import Leaves.Lib.Fixed
import Leaves.Memory.AreaPool

/-!
How the file grows, `resize_file` of `storage/_mmap.hpp`, in the 64- and 32-bit arithmetic it is
written in, for what `alloc_single_area`, `alloc_multi_area` and `_BigMemory::alloc` ask for.
-/

namespace Leaves

open Fixed (Computes)

/-- `padding` of two `size_t` -/
def padding64 (a b : Nat) : Fixed Nat := do
  let sum ← Fixed.add 64 a b
  let sum ← Fixed.sub 64 sum 1
  Fixed.mul 64 (sum / b) b

/-- `Area::init`: the size is cast to `uint32_t`. -/
def Areas.init32 (m : Areas) (a size next : Nat) : Fixed Areas := do
  let size ← Fixed.cast 32 size
  pure (m.init a size next)

/-- A request: for a single area, for a multi area of `size` bytes, or for a value of `size` bytes.
-/
inductive AreaRequest where
  | single
  | multi (size : Nat)
  | big (size : Nat)
  deriving DecidableEq, Repr

namespace AreaFile

/-- `resize_file` -/
def resizeFile64 (f : AreaFile) (size : Nat) : Fixed (Option (AreaFile × Nat)) := do
  let totalGrowth ← padding64 (max (max size (10 * AREA_SIZE)) (f.fileSize / 4)) AREA_SIZE
  let fileSize ← Fixed.add 64 f.fileSize totalGrowth
  if f.regionSize < fileSize then
    pure none
  else
    let newOffset := f.fileSize
    let m ← f.areas.init32 newOffset size 0
    if size < totalGrowth then
      let extraOffset ← Fixed.add 64 newOffset size
      let extraSize ← Fixed.sub 64 totalGrowth size
      let m ← m.init32 extraOffset extraSize 0
      let (l, m) := f.multiAreas.push m extraOffset
      pure (some ({ f with fileSize, areas := m, multiAreas := l }, newOffset))
    else
      pure (some ({ f with fileSize, areas := m }, newOffset))

/-- `alloc_multi_area` if the pool has no area that is big enough. -/
def growMulti (f : AreaFile) (size : Nat) : Fixed (Option (AreaFile × Nat)) := do
  let size ← padding64 size AREA_SIZE
  f.resizeFile64 size

/-- What `_BigMemory::alloc` finds in the area: the bytes from `content_offset()` to `end()`, and
how many of them are left behind the chunk. -/
def content (f : AreaFile) (a paddedSize : Nat) : Fixed (Nat × Nat) := do
  let foundOffset ← Fixed.add 64 a AREA_HEADER_SIZE
  let stop ← Fixed.add 64 a (f.areas.size a)
  let foundSize ← Fixed.sub 64 stop foundOffset
  let delta ← Fixed.sub 64 foundSize paddedSize
  pure (foundSize, delta)

/-- `_BigMemory::alloc` if neither it nor the pool has the space. -/
def growBig (f : AreaFile) (size : Nat) : Fixed (Option (AreaFile × Nat)) := do
  let totalSize ← Fixed.add 64 FREE_KEY_SIZE size
  let paddedSize ← padding64 totalSize MAX_PAGE_SIZE
  let sum ← Fixed.add 64 paddedSize AREA_HEADER_SIZE
  let psize ← padding64 sum AREA_SIZE
  let grown ← f.growMulti psize
  match grown with
  | none => pure none
  | some (f, a) =>
    let _ ← f.content a paddedSize
    pure (some (f, a))

/-- The file grows for a request. -/
def grow (f : AreaFile) : AreaRequest → Fixed (Option (AreaFile × Nat))
  | .single => f.resizeFile64 AREA_SIZE
  | .multi size => f.growMulti size
  | .big size => f.growBig size

end AreaFile

/-- The bytes that are needed of the area. -/
def AreaRequest.need : AreaRequest → Nat
  | .single => AREA_SIZE
  | .multi size => size
  | .big size => AREA_HEADER_SIZE + FREE_KEY_SIZE + size

/-- The request in whole areas. -/
def AreaRequest.asked : AreaRequest → Nat
  | .single => AREA_SIZE
  | .multi size => padding size AREA_SIZE
  | .big size =>
    padding (padding (padding (FREE_KEY_SIZE + size) MAX_PAGE_SIZE + AREA_HEADER_SIZE) AREA_SIZE)
      AREA_SIZE

theorem AreaRequest.asked_big (size : Nat) :
    (AreaRequest.big size).asked
      =
    padding (padding (padding (FREE_KEY_SIZE + size) MAX_PAGE_SIZE + AREA_HEADER_SIZE) AREA_SIZE)
      AREA_SIZE := rfl

theorem AreaRequest.need_big (size : Nat) :
    (AreaRequest.big size).need = AREA_HEADER_SIZE + FREE_KEY_SIZE + size := rfl

theorem computes_padding64 {a b : Nat} (hb : 0 < b) :
    Computes (padding64 a b) (a + b < 2 ^ 64) (padding a b) := by
  have h : Computes (padding64 a b)
      (a + b < 2 ^ 64 ∧ (1 ≤ a + b ∧ a + b < 2 ^ 64) ∧ (a + b - 1) / b * b < 2 ^ 64)
      (padding a b) := by
    apply (Fixed.computes_add 64 a b).bind
    intro _
    apply (Fixed.computes_sub 64 (a + b) 1).bind
    intro _
    exact Fixed.computes_mul 64 ((a + b - 1) / b) b
  apply h.congr
  constructor
  . exact And.left
  . intro hlt
    have hmul := Nat.div_mul_le_self (a + b - 1) b
    exact ⟨hlt, ⟨by omega, hlt⟩, by omega⟩

theorem computes_init32 (m : Areas) (a size next : Nat) :
    Computes (m.init32 a size next) (size < 2 ^ 32) (m.init a size next) := by
  have h : Computes (m.init32 a size next) (size < 2 ^ 32 ∧ True) (m.init a size next) := by
    apply (Fixed.computes_cast 32 size).bind
    intro _
    exact Fixed.computes_pure _
  apply h.congr
  exact and_iff_left trivial

namespace AreaFile

variable (f : AreaFile) (size : Nat)

/-- The file has to grow by this much at least. -/
def needed : Nat := max (max size (10 * AREA_SIZE)) (f.fileSize / 4)

theorem totalGrowth_eq : f.totalGrowth size = padding (f.needed size) AREA_SIZE := rfl

/-- No step of `resize_file` wraps around. -/
def ResizeExact : Prop :=
  f.needed size + AREA_SIZE < 2 ^ 64 ∧ f.fileSize + f.totalGrowth size < 2 ^ 64 ∧
    (f.fileSize + f.totalGrowth size ≤ f.regionSize → f.GrowthFits size)

/-- `resize_file` computes what it would with numbers of any size. -/
theorem computes_resizeFile64 :
    Computes (f.resizeFile64 size) (f.ResizeExact size) (f.resizeFile size) := by
  have hpad : Computes (padding64 (f.needed size) AREA_SIZE) _ (f.totalGrowth size) :=
    computes_padding64 (show 0 < AREA_SIZE by decide)
  have hle := f.le_totalGrowth size
  unfold AreaFile.resizeFile
  apply hpad.bind
  intro _
  apply (Fixed.computes_add 64 f.fileSize (f.totalGrowth size)).bind
  intro hlt
  dsimp only
  by_cases hfull : f.regionSize < f.fileSize + f.totalGrowth size
  . rw [if_pos hfull, if_pos hfull]
    apply (Fixed.computes_pure none).congr
    exact iff_of_true trivial (fun h => absurd hfull (Nat.not_lt.2 h))
  . rw [if_neg hfull, if_neg hfull]
    have hfits : (f.fileSize + f.totalGrowth size ≤ f.regionSize → f.GrowthFits size) ↔
        f.GrowthFits size := forall_prop_of_true (Nat.not_lt.1 hfull)
    by_cases hrest : size < f.totalGrowth size
    . rw [if_pos hrest]
      apply Computes.congr (p := size < 2 ^ 32 ∧ f.fileSize + size < 2 ^ 64 ∧
        (size ≤ f.totalGrowth size ∧ f.totalGrowth size < 2 ^ 64) ∧
        f.totalGrowth size - size < 2 ^ 32 ∧ True)
      . apply (computes_init32 f.areas f.fileSize size 0).bind
        intro _
        rw [if_pos hrest]
        apply (Fixed.computes_add 64 f.fileSize size).bind
        intro _
        apply (Fixed.computes_sub 64 (f.totalGrowth size) size).bind
        intro _
        apply (computes_init32 _ (f.fileSize + size) (f.totalGrowth size - size) 0).bind
        intro _
        exact Fixed.computes_pure _
      . rw [hfits]
        unfold GrowthFits
        constructor
        . rintro ⟨hsize, -, -, hextra, -⟩
          exact ⟨hsize, hextra⟩
        . rintro ⟨hsize, hextra⟩
          exact ⟨hsize, by omega, ⟨hle, by omega⟩, hextra, trivial⟩
    . rw [if_neg hrest]
      apply Computes.congr (p := size < 2 ^ 32 ∧ True)
      . apply (computes_init32 f.areas f.fileSize size 0).bind
        intro _
        rw [if_neg hrest]
        exact Fixed.computes_pure _
      . rw [hfits]
        unfold GrowthFits
        constructor
        . rintro ⟨hsize, -⟩
          exact ⟨hsize, by omega⟩
        . rintro ⟨hsize, -⟩
          exact ⟨hsize, trivial⟩

/-! What a growth leaves in the file. -/

/-- The new areas: the one that is handed out, and maybe one in front of the pool's multi areas. -/
def Added (f f' : AreaFile) (a : Nat) (new : List Nat) : Prop :=
  (new = [a] ∧ f'.multiAreas = f.multiAreas) ∨
  ∃ extra, new = [a, extra] ∧ f'.multiAreas.getHead = extra ∧
    f'.areas.next extra = f.multiAreas.getHead

/-- The area is big enough, and the new areas tile the new part of the file. -/
structure Sound (f : AreaFile) (need : Nat) (f' : AreaFile) (a : Nat) : Prop where
  enough : need ≤ f'.areas.size a
  tiles : ∃ new, Added f f' a new ∧
    (∀ b ∈ new, 0 < f'.areas.size b ∧ AREA_SIZE ∣ f'.areas.size b ∧ f'.areas.size b < 2 ^ 32) ∧
    Range.Tiles (new.map f'.areas.range) [⟨f.fileSize, f'.fileSize - f.fileSize⟩]

section Resized

variable {f} {size : Nat} {f' : AreaFile} {a : Nat}

/-- The two ways in which the file grows. -/
theorem resizeFile_cases (h : f.resizeFile size = some (f', a)) :
    f.fileSize + f.totalGrowth size ≤ f.regionSize ∧ a = f.fileSize ∧
    f'.fileSize = f.fileSize + f.totalGrowth size ∧
    ((size < f.totalGrowth size ∧
        f'.multiAreas = f.multiAreas.atomicSwitch (f.fileSize + size)
          (if f.multiAreas.getTail = 0 then f.fileSize + size else f.multiAreas.getTail) ∧
        ∃ m, f'.areas = m.init (f.fileSize + size) (m.size (f.fileSize + size))
            f.multiAreas.getHead ∧
          m = (f.areas.init f.fileSize size 0).init (f.fileSize + size)
            (f.totalGrowth size - size) 0) ∨
      (size = f.totalGrowth size ∧ f'.multiAreas = f.multiAreas ∧
        f'.areas = f.areas.init f.fileSize size 0)) := by
  have hle := f.le_totalGrowth size
  unfold AreaFile.resizeFile at h
  dsimp only at h
  split at h
  next => cases h
  next hroom =>
    split at h
    next hlt =>
      rw [Option.some_inj, Prod.mk.injEq] at h
      obtain ⟨rfl, rfl⟩ := h
      exact ⟨Nat.not_lt.1 hroom, rfl, rfl, Or.inl ⟨hlt, rfl, _, rfl, rfl⟩⟩
    next hge =>
      rw [Option.some_inj, Prod.mk.injEq] at h
      obtain ⟨rfl, rfl⟩ := h
      exact ⟨Nat.not_lt.1 hroom, rfl, rfl, Or.inr ⟨by omega, rfl, rfl⟩⟩

/-- The sizes of the new areas. -/
theorem sizes_of_resizeFile (hfits : f.GrowthFits size) (h : f.resizeFile size = some (f', a))
    (hlt : size < f.totalGrowth size) :
    f'.areas.size (f.fileSize + size) = f.totalGrowth size - size ∧
    (0 < size → f'.areas.size f.fileSize = size) := by
  obtain ⟨-, -, -, ⟨-, -, m, hareas, hm⟩ | ⟨heq, -⟩⟩ := resizeFile_cases h
  . have hextra : m.size (f.fileSize + size) = f.totalGrowth size - size := by
      rw [hm, Areas.size_init, Function.update_self, Nat.mod_eq_of_lt hfits.2]
    constructor
    . rw [hareas, Areas.size_init, Function.update_self, hextra, Nat.mod_eq_of_lt hfits.2]
    . intro hpos
      rw [hareas, Areas.size_init, Function.update_of_ne (by omega), hm, Areas.size_init,
        Function.update_of_ne (by omega), Areas.size_init, Function.update_self,
        Nat.mod_eq_of_lt hfits.1]
  . omega

theorem size_of_resizeFile (hfits : f.GrowthFits size) (hpos : 0 < size)
    (h : f.resizeFile size = some (f', a)) : f'.areas.size f.fileSize = size := by
  by_cases hlt : size < f.totalGrowth size
  . exact (sizes_of_resizeFile hfits h hlt).2 hpos
  . obtain ⟨-, -, -, ⟨hlt', -⟩ | ⟨-, -, hareas⟩⟩ := resizeFile_cases h
    . exact absurd hlt' hlt
    . rw [hareas, Areas.size_init, Function.update_self, Nat.mod_eq_of_lt hfits.1]

theorem sound_of_resizeFile (hfits : f.GrowthFits size) (hpos : 0 < size) (hdvd : AREA_SIZE ∣ size)
    (h : f.resizeFile size = some (f', a)) : Sound f size f' a := by
  have hsize := size_of_resizeFile hfits hpos h
  obtain ⟨-, rfl, hgrown, hcases⟩ := resizeFile_cases h
  have hle := f.le_totalGrowth size
  have hone : ∀ x, Range.owners [⟨f.fileSize, f.totalGrowth size⟩] x ≤ 1 := by
    intro x
    rw [Range.owners_cons, Range.owners_nil]
    split <;> omega
  refine ⟨Nat.le_of_eq hsize.symm, ?_⟩
  rw [hgrown, Nat.add_sub_cancel_left]
  rcases hcases with ⟨hlt, hmulti, m, hareas, -⟩ | ⟨heq, hmulti, -⟩
  . have hextra := (sizes_of_resizeFile hfits h hlt).1
    refine ⟨[f.fileSize, f.fileSize + size], Or.inr ⟨_, rfl, ?_, ?_⟩, ?_, ?_, hone⟩
    . rw [hmulti, AreaList.getHead_atomicSwitch]
    . rw [hareas, Areas.next_init, Function.update_self]
    . intro b hb
      rw [List.mem_cons, List.mem_singleton] at hb
      rcases hb with rfl | rfl
      . rw [hsize]
        exact ⟨hpos, hdvd, hfits.1⟩
      . rw [hextra]
        exact ⟨by omega, Nat.dvd_sub (f.dvd_totalGrowth size) hdvd, hfits.2⟩
    . intro x
      have hsplit := Range.owners_split [] f.fileSize size (f.totalGrowth size - size) x
      rw [Nat.add_sub_cancel' hle] at hsplit
      rw [← hsplit, List.map_cons, List.map_cons, List.map_nil, Areas.range, Areas.range, hsize,
        hextra]
  . refine ⟨[f.fileSize], Or.inl ⟨rfl, hmulti⟩, ?_, ?_, hone⟩
    . intro b hb
      rw [List.mem_singleton] at hb
      rw [hb, hsize]
      exact ⟨hpos, hdvd, hfits.1⟩
    . intro x
      rw [List.map_cons, List.map_nil, Areas.range, hsize, ← heq]

/-- An area for nothing and the one behind it begin at the same place. -/
theorem not_sound_zero {need : Nat} (h : f.resizeFile 0 = some (f', a)) :
    ¬Sound f need f' a := by
  rintro ⟨-, new, hadded, hsizes, htiles⟩
  have hneed : f.needed 0 ≤ f.totalGrowth 0 := le_padding (by decide)
  have hpos : 0 < f.totalGrowth 0 := by
    unfold needed AREA_SIZE at hneed
    omega
  obtain ⟨-, rfl, -, ⟨-, hmulti, -⟩ | ⟨heq, -⟩⟩ := resizeFile_cases h
  . rcases hadded with ⟨-, heq⟩ | ⟨extra, rfl, hhead, -⟩
    . have hactive := congrArg AreaList.active (hmulti.symm.trans heq)
      unfold AreaList.atomicSwitch at hactive
      cases hf : f.multiAreas.active <;> simp [hf] at hactive
    . rw [hmulti, AreaList.getHead_atomicSwitch] at hhead
      have hsize := (hsizes extra (by simp)).1
      have hapart : (f'.areas.range f.fileSize).Apart (f'.areas.range extra) :=
        Range.Tiles.apart_of_cons htiles (by simp)
      apply hapart extra
      . unfold Range.Has Areas.range
        dsimp only
        rw [← hhead, Nat.add_zero] at hsize ⊢
        omega
      . unfold Range.Has Areas.range
        dsimp only
        omega
  . omega

end Resized

/-! The requests. -/

theorem computes_growMulti :
    Computes (f.growMulti size)
      (size + AREA_SIZE < 2 ^ 64 ∧ f.ResizeExact (padding size AREA_SIZE))
      (f.resizeFile (padding size AREA_SIZE)) := by
  apply (computes_padding64 (show 0 < AREA_SIZE by decide)).bind
  intro _
  exact f.computes_resizeFile64 _

theorem computes_content {a paddedSize : Nat} (hstop : a + f.areas.size a < 2 ^ 64)
    (hroom : AREA_HEADER_SIZE + paddedSize ≤ f.areas.size a) :
    Computes (f.content a paddedSize) True
      (f.areas.size a - AREA_HEADER_SIZE, f.areas.size a - AREA_HEADER_SIZE - paddedSize) := by
  have hfound : a + f.areas.size a - (a + AREA_HEADER_SIZE)
      = f.areas.size a - AREA_HEADER_SIZE := Nat.add_sub_add_left ..
  apply Computes.congr (p := a + AREA_HEADER_SIZE < 2 ^ 64 ∧ a + f.areas.size a < 2 ^ 64 ∧
    (a + AREA_HEADER_SIZE ≤ a + f.areas.size a ∧ a + f.areas.size a < 2 ^ 64) ∧
    (paddedSize ≤ f.areas.size a - AREA_HEADER_SIZE ∧
      f.areas.size a - AREA_HEADER_SIZE < 2 ^ 64) ∧ True)
  . apply (Fixed.computes_add 64 a AREA_HEADER_SIZE).bind
    intro _
    apply (Fixed.computes_add 64 a (f.areas.size a)).bind
    intro _
    apply (Fixed.computes_sub 64 (a + f.areas.size a) (a + AREA_HEADER_SIZE)).bind
    intro _
    rw [hfound]
    apply (Fixed.computes_sub 64 (f.areas.size a - AREA_HEADER_SIZE) paddedSize).bind
    intro _
    exact Fixed.computes_pure _
  . apply iff_of_true _ trivial
    exact ⟨by omega, hstop, ⟨by omega, hstop⟩, ⟨by omega, by omega⟩, trivial⟩

theorem computes_growBig {padded psize asked : Nat}
    (hpadded : padding (FREE_KEY_SIZE + size) MAX_PAGE_SIZE = padded)
    (hpsize : padding (padded + AREA_HEADER_SIZE) AREA_SIZE = psize)
    (hasked : padding psize AREA_SIZE = asked) :
    Computes (f.growBig size)
      (FREE_KEY_SIZE + size < 2 ^ 64 ∧ FREE_KEY_SIZE + size + MAX_PAGE_SIZE < 2 ^ 64 ∧
        padded + AREA_HEADER_SIZE < 2 ^ 64 ∧ padded + AREA_HEADER_SIZE + AREA_SIZE < 2 ^ 64 ∧
        (psize + AREA_SIZE < 2 ^ 64 ∧ f.ResizeExact asked) ∧ True)
      (f.resizeFile asked) := by
  have harea : 0 < AREA_SIZE := by decide
  have hchunk := computes_padding64 (a := FREE_KEY_SIZE + size)
    (show 0 < MAX_PAGE_SIZE by decide)
  have hwhole := computes_padding64 (a := padded + AREA_HEADER_SIZE) harea
  have hmulti := f.computes_growMulti psize
  rw [hpadded] at hchunk
  rw [hpsize] at hwhole
  rw [hasked] at hmulti
  apply (Fixed.computes_add 64 FREE_KEY_SIZE size).bind
  intro _
  apply hchunk.bind
  intro _
  apply (Fixed.computes_add 64 padded AREA_HEADER_SIZE).bind
  intro _
  apply hwhole.bind
  intro _
  apply hmulti.bind
  rintro ⟨-, hexact⟩
  have hinner := le_padding (a := padded + AREA_HEADER_SIZE) harea
  have houter := le_padding (a := psize) harea
  rw [hpsize] at hinner
  rw [hasked] at houter
  cases h : f.resizeFile asked with
  | none => exact Fixed.computes_pure none
  | some r =>
    obtain ⟨f', a⟩ := r
    have hle := f.le_totalGrowth asked
    have hheader : 0 < AREA_HEADER_SIZE := by decide
    obtain ⟨hregion, rfl, -⟩ := resizeFile_cases h
    have hsize := size_of_resizeFile (hexact.2.2 hregion) (show 0 < asked by omega) h
    have hlt := hexact.2.1
    have hstop : f.fileSize + f'.areas.size f.fileSize < 2 ^ 64 := by
      rw [hsize]
      exact Nat.lt_of_le_of_lt (Nat.add_le_add_left hle _) hlt
    have hroom : AREA_HEADER_SIZE + padded ≤ f'.areas.size f.fileSize := by
      rw [hsize, Nat.add_comm]
      exact Nat.le_trans hinner houter
    have hcontent := f'.computes_content hstop hroom
    apply Computes.congr (p := True ∧ True)
    . apply hcontent.bind
      intro _
      exact Fixed.computes_pure _
    . exact iff_of_true ⟨trivial, trivial⟩ trivial

theorem le_needed : size ≤ f.needed size :=
  Nat.le_trans (Nat.le_max_left ..) (Nat.le_max_left ..)

/-- A request computes what it would with numbers of any size, unless the growth wraps around. -/
theorem computes_grow (r : AreaRequest) :
    Computes (f.grow r) (f.ResizeExact r.asked) (f.resizeFile r.asked) := by
  have harea : 0 < AREA_SIZE := by decide
  cases r with
  | single => exact f.computes_resizeFile64 AREA_SIZE
  | multi size =>
    have hle := le_padding (a := size) harea
    have hneeded := f.le_needed (padding size AREA_SIZE)
    apply (f.computes_growMulti size).congr
    apply and_iff_right_of_imp
    intro hexact
    have hlt := hexact.1
    omega
  | big size =>
    have hchunk := le_padding (a := FREE_KEY_SIZE + size) (show 0 < MAX_PAGE_SIZE by decide)
    rw [AreaRequest.asked_big]
    apply (f.computes_growBig size rfl rfl rfl).congr
    generalize padding (FREE_KEY_SIZE + size) MAX_PAGE_SIZE = padded at hchunk
    have hinner := le_padding (a := padded + AREA_HEADER_SIZE) harea
    generalize padding (padded + AREA_HEADER_SIZE) AREA_SIZE = psize at hinner
    have houter := le_padding (a := psize) harea
    have hneeded := f.le_needed (padding psize AREA_SIZE)
    have hpage : MAX_PAGE_SIZE ≤ AREA_SIZE := by decide
    constructor
    . rintro ⟨-, -, -, -, ⟨-, hexact⟩, -⟩
      exact hexact
    . intro hexact
      have hlt := hexact.1
      exact ⟨by omega, by omega, by omega, by omega, ⟨by omega, hexact⟩, trivial⟩

/-- The whole areas between the end of the file and a limit. -/
def roomBelow (limit : Nat) : Nat := (limit - f.fileSize) / AREA_SIZE * AREA_SIZE

theorem totalGrowth_le_iff (limit : Nat) :
    f.fileSize + f.totalGrowth size ≤ limit ↔ f.needed size ≤ f.roomBelow limit := by
  have hpos : AREA_SIZE ≤ f.needed size := by
    unfold needed AREA_SIZE
    omega
  rw [totalGrowth_eq]
  unfold roomBelow padding
  generalize f.needed size = need at hpos
  unfold AREA_SIZE at hpos ⊢
  omega

theorem growthFits_iff (hdvd : AREA_SIZE ∣ size) :
    f.GrowthFits size ↔ size < 2 ^ 32 ∧ f.fileSize / 4 + AREA_SIZE ≤ size + 2 ^ 32 := by
  unfold GrowthFits
  rw [totalGrowth_eq]
  unfold needed padding
  apply and_congr_right
  intro hlt
  obtain ⟨n, rfl⟩ := hdvd
  unfold AREA_SIZE at hlt ⊢
  omega

theorem asked_dvd (r : AreaRequest) : AREA_SIZE ∣ r.asked := by
  cases r with
  | single => exact Nat.dvd_refl _
  | multi size => exact Nat.dvd_mul_left ..
  | big size => exact Nat.dvd_mul_left ..

theorem need_le_asked (r : AreaRequest) : r.need ≤ r.asked := by
  have harea : 0 < AREA_SIZE := by decide
  cases r with
  | single => exact Nat.le_refl _
  | multi size => exact le_padding harea
  | big size =>
    have hchunk := le_padding (a := FREE_KEY_SIZE + size) (show 0 < MAX_PAGE_SIZE by decide)
    rw [AreaRequest.asked_big, AreaRequest.need_big]
    generalize padding (FREE_KEY_SIZE + size) MAX_PAGE_SIZE = padded at hchunk ⊢
    have hinner := le_padding (a := padded + AREA_HEADER_SIZE) harea
    generalize padding (padded + AREA_HEADER_SIZE) AREA_SIZE = psize at hinner ⊢
    have houter := le_padding (a := psize) harea
    omega

/-- No number wraps around, and what comes to the file is as it has to be. -/
def GrowsSoundly (r : AreaRequest) : Prop :=
  (f.grow r).exact = true ∧ ∀ f' a, (f.grow r).val = some (f', a) → Sound f r.need f' a

/-- The new end of the file is a number, and unless the region is full, the area that is asked for
and the rest of a quarter of the file have sizes of 32 bits. -/
def Fits (r : AreaRequest) : Prop :=
  f.needed r.asked + AREA_SIZE < 2 ^ 64 ∧ f.needed r.asked ≤ f.roomBelow (2 ^ 64 - 1) ∧
    (f.needed r.asked ≤ f.roomBelow f.regionSize →
      0 < r.asked ∧ r.asked < 2 ^ 32 ∧ f.fileSize / 4 + AREA_SIZE ≤ r.asked + 2 ^ 32)

theorem growsSoundly_iff (r : AreaRequest) : f.GrowsSoundly r ↔ f.Fits r := by
  have hcomputes := f.computes_grow r
  have hlimit : f.fileSize + f.totalGrowth r.asked < 2 ^ 64 ↔
      f.needed r.asked ≤ f.roomBelow (2 ^ 64 - 1) := by
    rw [← totalGrowth_le_iff]
    omega
  have hregion := f.totalGrowth_le_iff r.asked f.regionSize
  have hdvd := asked_dvd r
  have hfits := f.growthFits_iff r.asked hdvd
  unfold GrowsSoundly Fits
  rw [hcomputes.exact]
  constructor
  . rintro ⟨hexact, hsound⟩
    refine ⟨hexact.1, hlimit.1 hexact.2.1, ?_⟩
    intro hroom
    have hgrowth := hexact.2.2 (hregion.2 hroom)
    refine ⟨?_, hfits.1 hgrowth⟩
    apply Nat.pos_of_ne_zero
    intro hzero
    rw [hcomputes.val hexact, hzero] at hsound
    rw [hzero] at hregion hroom
    cases h : f.resizeFile 0 with
    | none =>
      unfold AreaFile.resizeFile at h
      dsimp only at h
      rw [if_neg (Nat.not_lt.2 (hregion.2 hroom))] at h
      split at h <;> cases h
    | some g => exact not_sound_zero h (hsound g.1 g.2 h)
  . rintro ⟨hneeded, hsmall, hrest⟩
    have hexact : f.ResizeExact r.asked :=
      ⟨hneeded, hlimit.2 hsmall, fun hroom => hfits.2 (hrest (hregion.1 hroom)).2⟩
    refine ⟨hexact, ?_⟩
    intro f' a h
    rw [hcomputes.val hexact] at h
    have hroom := (resizeFile_cases h).1
    have hsound := sound_of_resizeFile (hexact.2.2 hroom) (hrest (hregion.1 hroom)).1 hdvd h
    exact ⟨Nat.le_trans (need_le_asked r) hsound.enough, hsound.tiles⟩

/-- A file of 16 GiB and four areas: the rest of its growth has 4 GiB, which are cut to 0. -/
theorem growsSoundly_large :
    ¬GrowsSoundly { AreaFile.init (2 ^ 36) with fileSize := 2 ^ 34 + 4 * AREA_SIZE } .single := by
  rintro ⟨hexact, -⟩
  revert hexact
  decide +kernel

end AreaFile
end Leaves
