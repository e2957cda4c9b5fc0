import Leaves.Memory.Chunks

/-!
What the operations on the memory of the big values do to the chunks.
-/

namespace Leaves

open OrdMap

theorem FreeKey.size_le_of_lt {n : Nat} {k : FreeKey} (h : ⟨n, 0⟩ < k) : n ≤ k.size := by
  have hlt : FreeKey.order ⟨n, 0⟩ < k.order := h
  rw [FreeKey.order, FreeKey.order, Prod.Lex.toLex_lt_toLex] at hlt
  rcases hlt with hlt | ⟨heq, -⟩
  . exact hlt.le
  . exact heq.le

theorem padding_pos {a b : Nat} (ha : 0 < a) (hb : 0 < b) : 0 < padding a b := by
  unfold padding
  apply Nat.mul_pos _ hb
  apply Nat.div_pos _ hb
  omega

theorem le_padding {a b : Nat} (hb : 0 < b) : a ≤ padding a b := by
  unfold padding
  have h := Nat.div_add_mod (a + b - 1) b
  have hlt := Nat.mod_lt (a + b - 1) hb
  rw [Nat.mul_comm] at h
  omega

theorem padding_even (a : Nat) : padding a MAX_PAGE_SIZE % 2 = 0 := by
  unfold padding MAX_PAGE_SIZE
  omega

namespace BigMemory

/-- The hot chunk if there is one. -/
def hot (b : Bigmem) : List Chunk :=
  if 0 < b.hotSize then [⟨b.hotOffset, b.hotSize, b.hotSuccessor⟩] else []

theorem hot_reset (b : Bigmem) : hot b.reset = [] := rfl

/-- The chunks of the state with some chunks in hand tile the areas. -/
def Tiled (s : BigMemory) (others : List Chunk) : Prop :=
  Laid s.areas s.memory s.values s.bigmem.root others

variable {s s' : BigMemory} {others : List Chunk}

theorem tiled_addChunk {offset size : Nat} {successor : Bool}
    (h : s.Tiled (⟨offset, size, successor⟩ :: others)) (freed : Bool) :
    (s.addChunk offset size successor freed).Tiled others :=
  h.put _

theorem findChunk_spec {root : List (FreeKey × Nat)} {startTxnId n size : Nat} {key : Option FreeKey}
    {found : FreeKey} (hroot : Ascending root) (hkey : ∀ k ∈ key, ⟨size, 0⟩ < k)
    (h : findChunk root startTxnId n key = some found) :
    size ≤ found.size ∧ ∃ t, lookup root found = some t := by
  induction n generalizing key with
  | zero => simp [findChunk] at h
  | succ n ih =>
    match key with
    | none => simp [findChunk] at h
    | some k =>
      have hk : ⟨size, 0⟩ < k := hkey k rfl
      rw [findChunk] at h
      split at h
      next => simp at h
      next t ht =>
        split at h
        next =>
          rw [Option.some.injEq] at h
          rw [← h]
          exact ⟨FreeKey.size_le_of_lt hk, t, ht⟩
        next =>
          refine ih ?_ h
          intro k' hk'
          have hnear := steps_next root hroot k
          rw [hk'] at hnear
          exact hk.trans hnear.1.2

/-- What an operation that takes a chunk leaves alone. -/
structure SameValues (s s' : BigMemory) : Prop where
  memory : s'.memory = s.memory
  values : s'.values = s.values
  saved : s'.saved = s.saved
  txnId : s'.txnId = s.txnId

theorem takeChunk_spec {paddedSize area : Nat} {found : FreeKey} (h : s.Tiled (hot s.bigmem))
    (htake : s.takeChunk paddedSize area = some (s', found)) :
    s'.Tiled (found.chunk :: hot s'.bigmem) ∧ paddedSize ≤ found.size ∧ s'.stackChanged = true ∧
      SameValues s s' := by
  unfold takeChunk at htake
  split at htake
  next key hfind =>
    simp only [Option.some.injEq, Prod.mk.injEq] at htake
    obtain ⟨rfl, rfl⟩ := htake
    have hnext : ∀ k ∈ next s.bigmem.root ⟨paddedSize, 0⟩, ⟨paddedSize, 0⟩ < k := by
      intro k hk
      have hnear := steps_next s.bigmem.root h.ascending ⟨paddedSize, 0⟩
      rw [hk] at hnear
      exact hnear.1.2
    obtain ⟨hsize, t, ht⟩ := findChunk_spec h.ascending hnext hfind
    exact ⟨h.take ht, hsize, rfl, rfl, rfl, rfl, rfl⟩
  next hfind =>
    simp only at htake
    split at htake
    next hfresh =>
      simp only [Option.some.injEq, Prod.mk.injEq] at htake
      obtain ⟨rfl, rfl⟩ := htake
      have hle : paddedSize + AREA_HEADER_SIZE ≤
          padding (paddedSize + AREA_HEADER_SIZE) AREA_SIZE := le_padding (by decide)
      have hlaid := h.addArea hfresh ?_
      . have hplaced := hlaid.placed_of_mem List.mem_cons_self
        refine ⟨?_, ?_, rfl, rfl, rfl, rfl, rfl⟩
        . rw [← Chunk.chunk_key hplaced.2.1] at hlaid
          exact hlaid
        . simp only [FreeKey.pack, Area.stop, Area.contentOffset]
          omega
      . have hpos : 0 < padding (paddedSize + AREA_HEADER_SIZE) AREA_SIZE := by
          apply padding_pos _ (by decide)
          simp [AREA_HEADER_SIZE]
        have hbig : AREA_SIZE ≤ padding (paddedSize + AREA_HEADER_SIZE) AREA_SIZE := by
          unfold padding at hpos ⊢
          apply Nat.le_mul_of_pos_left
          exact Nat.pos_of_mul_pos_right hpos
        exact Nat.lt_of_lt_of_le (by decide) hbig
    next => simp at htake

theorem SameValues.trans {s'' : BigMemory} (h : SameValues s s') (h' : SameValues s' s'') :
    SameValues s s'' :=
  ⟨h'.memory.trans h.memory, h'.values.trans h.values, h'.saved.trans h.saved,
    h'.txnId.trans h.txnId⟩

/-- The chunk in hand is cut in two. -/
theorem tiled_cut {paddedSize : Nat} {found : FreeKey} (h : s.Tiled (found.chunk :: others))
    (hpos : 0 < paddedSize) (heven : paddedSize % 2 = 0) (hlt : paddedSize < found.size) :
    s.Tiled ((FreeKey.pack paddedSize found.position true).chunk ::
      ⟨found.position + paddedSize, found.size - paddedSize, found.hasSuccessor⟩ :: others) := by
  have hchunk : found.chunk =
      ⟨found.position, paddedSize + (found.size - paddedSize), found.hasSuccessor⟩ := by
    rw [FreeKey.chunk, Nat.add_sub_cancel' hlt.le]
  rw [Tiled, hchunk] at h
  have hsplit := h.split hpos (Nat.sub_pos_of_lt hlt) heven
  have hkey : (FreeKey.pack paddedSize found.position true).chunk =
      ⟨found.position, paddedSize, true⟩ :=
    Chunk.chunk_key (hsplit.placed_of_mem List.mem_cons_self).2.1
  rw [hkey]
  exact hsplit

theorem cutChunk_spec {paddedSize : Nat} {found : FreeKey}
    (h : s.Tiled (found.chunk :: hot s.bigmem)) (hpos : 0 < paddedSize)
    (heven : paddedSize % 2 = 0) (hle : paddedSize ≤ found.size) (hchanged : s.stackChanged = true) :
    (s.cutChunk paddedSize found).1.Tiled ((s.cutChunk paddedSize found).2.chunk ::
        hot (s.cutChunk paddedSize found).1.bigmem) ∧
      paddedSize ≤ (s.cutChunk paddedSize found).2.size ∧
      (s.cutChunk paddedSize found).1.stackChanged = true ∧
      SameValues s (s.cutChunk paddedSize found).1 := by
  unfold cutChunk
  split
  next hdelta =>
    have hlt : paddedSize < found.size := by
      simp only [MAX_PAGE_SIZE] at hdelta
      omega
    have hrest : 0 < found.size - paddedSize := Nat.sub_pos_of_lt hlt
    have hcut := tiled_cut h hpos heven hlt
    split
    next hhot =>
      rw [hot, if_pos hhot] at hcut
      -- the old hot chunk comes to the front, to be put into the trie
      have hperm := hcut.perm (List.Perm.trans (List.Perm.swap _ _ _)
        (List.Perm.cons _ (List.Perm.swap _ _ _)))
      have hput := tiled_addChunk (s := s) hperm false
      refine ⟨?_, Nat.le_refl _, rfl, rfl, rfl, rfl, rfl⟩
      rw [hot, if_pos hrest]
      exact hput
    next hhot =>
      rw [hot, if_neg hhot] at hcut
      refine ⟨?_, Nat.le_refl _, hchanged, rfl, rfl, rfl, rfl⟩
      rw [hot, if_pos hrest]
      exact hcut
  next => exact ⟨h, hle, hchanged, rfl, rfl, rfl, rfl⟩

theorem takeHot_spec {paddedSize : Nat} (h : s.Tiled (hot s.bigmem)) (hpos : 0 < paddedSize)
    (heven : paddedSize % 2 = 0) (hle : paddedSize ≤ s.bigmem.hotSize) :
    (s.takeHot paddedSize).1.Tiled
        ((s.takeHot paddedSize).2.chunk :: hot (s.takeHot paddedSize).1.bigmem) ∧
      (s.takeHot paddedSize).2.size = paddedSize ∧
      (s.takeHot paddedSize).1.stackChanged = s.stackChanged ∧
      SameValues s (s.takeHot paddedSize).1 := by
  have hhot : 0 < s.bigmem.hotSize := Nat.lt_of_lt_of_le hpos hle
  rw [hot, if_pos hhot] at h
  have heven' := (h.placed_of_mem List.mem_cons_self).2.1
  unfold takeHot
  split
  next hzero =>
    have hsize : paddedSize = s.bigmem.hotSize := by omega
    refine ⟨?_, rfl, rfl, rfl, rfl, rfl, rfl⟩
    rw [hot_reset, hsize]
    have hkey : (FreeKey.pack s.bigmem.hotSize s.bigmem.hotOffset s.bigmem.hotSuccessor).chunk =
        ⟨s.bigmem.hotOffset, s.bigmem.hotSize, s.bigmem.hotSuccessor⟩ := Chunk.chunk_key heven'
    rw [hkey]
    exact h
  next hrest =>
    have hsplit : s.bigmem.hotSize = paddedSize + (s.bigmem.hotSize - paddedSize) := by omega
    have hcut := h
    rw [Tiled, hsplit] at hcut
    have hcut := hcut.split hpos (by omega) heven
    refine ⟨?_, rfl, rfl, rfl, rfl, rfl, rfl⟩
    have hkey : (FreeKey.pack paddedSize s.bigmem.hotOffset true).chunk =
        ⟨s.bigmem.hotOffset, paddedSize, true⟩ :=
      Chunk.chunk_key (c := ⟨s.bigmem.hotOffset, paddedSize, true⟩) heven'
    rw [hkey, hot, if_pos (Nat.pos_of_ne_zero hrest)]
    exact hcut

theorem place_spec {key : FreeKey} {size : Nat} (h : s.Tiled (key.chunk :: others))
    (hsize : FREE_KEY_SIZE + size ≤ key.size) :
    (s.place key size).Tiled others ∧
      (s.place key size).header ⟨key.position + FREE_KEY_SIZE, size % 2 ^ 32⟩ = key ∧
      ∀ v ∈ s.values, (s.place key size).header v = s.header v := by
  have hroom : FREE_KEY_SIZE + size % 2 ^ 32 ≤ key.chunk.size := by
    have := Nat.mod_le size (2 ^ 32)
    simp only [FreeKey.chunk]
    omega
  have hplace := h.addValue hroom
  rw [Chunk.key_chunk] at hplace
  refine ⟨hplace, ?_, ?_⟩
  . simp only [header, place, setHeader, Nat.add_sub_cancel, Function.update_self]
  . intro v hv
    exact Function.update_of_ne (h.header_ne hv) _ _

/-- What an allocation leads to. -/
structure Allocated (s s' : BigMemory) (size : Nat) : Prop where
  tiled : s'.Tiled (hot s'.bigmem)
  saved : s'.saved = s.saved
  txnId : s'.txnId = s.txnId
  unchanged : s'.stackChanged = false → s.stackChanged = false
  /-- the headers of the old values stay as they are, whoever has them -/
  headers : ∀ v ∈ s.values, s'.header v = s.header v
  value : ∃ v, s'.values = v :: s.values ∧ FREE_KEY_SIZE + size ≤ (s'.header v).size

theorem allocated_place {size : Nat} {key : FreeKey} {s₀ : BigMemory} (hsame : SameValues s₀ s)
    (hunchanged : s.stackChanged = false → s₀.stackChanged = false)
    (h : s.Tiled (key.chunk :: hot s.bigmem)) (hsize : FREE_KEY_SIZE + size ≤ key.size) :
    Allocated s₀ (s.place key size) size := by
  obtain ⟨htiled, hheader, hheaders⟩ := place_spec h hsize
  refine ⟨htiled, hsame.saved, hsame.txnId, hunchanged, ?_, ?_⟩
  . intro v hv
    rw [← hsame.values] at hv
    rw [hheaders v hv, header, header, hsame.memory]
  . refine ⟨⟨key.position + FREE_KEY_SIZE, size % 2 ^ 32⟩, ?_, ?_⟩
    . rw [← hsame.values]
      rfl
    . rw [hheader]
      exact hsize

theorem alloc_spec {size area : Nat} (h : s.Tiled (hot s.bigmem))
    (halloc : s.alloc size area = some s') :
    Allocated s s' size := by
  have hpos : 0 < padding (FREE_KEY_SIZE + size) MAX_PAGE_SIZE :=
    padding_pos (by rw [FREE_KEY_SIZE]; omega) (by decide)
  have hroom : FREE_KEY_SIZE + size ≤ padding (FREE_KEY_SIZE + size) MAX_PAGE_SIZE :=
    le_padding (by decide)
  have heven := padding_even (FREE_KEY_SIZE + size)
  unfold alloc at halloc
  simp only at halloc
  split at halloc
  next hle =>
    rw [Option.some.injEq] at halloc
    obtain ⟨htiled, hsize, hunchanged, hsame⟩ := takeHot_spec h hpos heven hle
    rw [← halloc]
    exact allocated_place hsame hunchanged.symm.trans htiled (by omega)
  next =>
    simp only [Option.bind_eq_bind, Option.bind_eq_some_iff] at halloc
    obtain ⟨⟨s₁, found⟩, htake, hplace⟩ := halloc
    obtain ⟨htiled, hle, hchanged, hsame⟩ := takeChunk_spec h htake
    obtain ⟨htiled', hsize, hchanged', hsame'⟩ := cutChunk_spec htiled hpos heven hle hchanged
    simp only [Option.some.injEq] at hplace
    rw [← hplace]
    refine allocated_place (hsame.trans hsame') ?_ htiled' (hroom.trans hsize)
    intro hfalse
    exact absurd (hchanged'.symm.trans hfalse) (by simp)

theorem free_spec {v : BigValue} (h : s.Tiled (hot s.bigmem)) (hv : v ∈ s.values) :
    (s.free v).Tiled (hot (s.free v).bigmem) :=
  tiled_addChunk (s := { s with values := s.values.erase v }) (h.dropValue hv) true

theorem write_spec {v : BigValue} (h : s.Tiled (hot s.bigmem)) (hv : v ∈ s.values)
    (contents : Nat → FreeKey) : ∀ w ∈ s.values, (s.write v contents).header w = s.header w := by
  intro w hw
  exact if_neg (h.header_not_within hv hw)

theorem coolDown_spec (h : s.Tiled (hot s.bigmem)) :
    s.coolDown.Tiled [] ∧ hot s.coolDown.bigmem = [] ∧ SameValues s s.coolDown ∧
      s.coolDown.startTxnId = s.startTxnId := by
  unfold coolDown
  split
  next hhot =>
    rw [hot, if_pos hhot] at h
    exact ⟨tiled_addChunk h false, hot_reset _, ⟨rfl, rfl, rfl, rfl⟩, rfl⟩
  next hhot =>
    rw [hot, if_neg hhot] at h
    exact ⟨h, by rw [hot, if_neg hhot], ⟨rfl, rfl, rfl, rfl⟩, rfl⟩

end BigMemory
end Leaves
