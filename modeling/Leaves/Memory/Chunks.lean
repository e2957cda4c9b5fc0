import Mathlib.Data.List.Pairwise
import Leaves.Lib.Nearest
import Leaves.Lib.Ranges
import Leaves.Memory.BigMemory

/-!
The chunks of the multi areas: those of the values, the free ones and the hot one. They tile the
areas, and what a chunk says about its successor is right.
-/

namespace Leaves

open OrdMap

structure Chunk where
  position : Nat
  size : Nat
  hasSuccessor : Bool
  deriving DecidableEq, Repr

namespace Chunk

def range (c : Chunk) : Range := ⟨c.position, c.size⟩

def stop (c : Chunk) : Nat := c.position + c.size

def key (c : Chunk) : FreeKey := FreeKey.pack c.size c.position c.hasSuccessor

end Chunk

def FreeKey.chunk (k : FreeKey) : Chunk := ⟨k.position, k.size, k.hasSuccessor⟩

def Area.content (a : Area) : Range := ⟨a.contentOffset, a.stop - a.contentOffset⟩

namespace Chunk

theorem position_key {c : Chunk} (h : c.position % 2 = 0) : c.key.position = c.position := by
  simp only [key, FreeKey.pack, FreeKey.position]
  cases c.hasSuccessor <;> simp only [Bool.toNat_false, Bool.toNat_true] <;> omega

theorem chunk_key {c : Chunk} (h : c.position % 2 = 0) : c.key.chunk = c := by
  have hpos := position_key h
  obtain ⟨position, size, successor⟩ := c
  simp only [FreeKey.chunk, mk.injEq]
  refine ⟨hpos, rfl, ?_⟩
  simp only [key, FreeKey.pack, FreeKey.hasSuccessor]
  cases successor <;> simp

theorem key_chunk (k : FreeKey) : k.chunk.key = k := by
  obtain ⟨size, offset⟩ := k
  simp only [key, FreeKey.pack, FreeKey.chunk, FreeKey.position, FreeKey.hasSuccessor,
    FreeKey.mk.injEq, true_and]
  rcases Nat.mod_two_eq_zero_or_one offset with h | h <;> simp [h] <;> omega

end Chunk

/-- The chunk lies in an area, and the flag says whether it goes to the end. -/
def Placed (areas : List Area) (c : Chunk) : Prop :=
  0 < c.size ∧ c.position % 2 = 0 ∧ ∃ a ∈ areas, a.contentOffset ≤ c.position ∧ c.stop ≤ a.stop ∧
    (c.hasSuccessor = true ↔ c.stop < a.stop)

theorem Placed.mono {areas areas' : List Area} {c : Chunk} (h : Placed areas c)
    (hsub : ∀ a ∈ areas, a ∈ areas') : Placed areas' c := by
  obtain ⟨hsize, heven, a, ha, h⟩ := h
  exact ⟨hsize, heven, a, hsub a ha, h⟩

/-- The chunk a value is in, as its header says. -/
def valueChunk (memory : Nat → FreeKey) (v : BigValue) : Chunk :=
  (memory (v.chunkOffset - FREE_KEY_SIZE)).chunk

def freeChunks (root : List (FreeKey × Nat)) : List Chunk := root.map fun e => e.1.chunk

/-- The header of the value is its own and there is room for the value. -/
def Roomy (memory : Nat → FreeKey) (v : BigValue) : Prop :=
  FREE_KEY_SIZE ≤ v.chunkOffset ∧
    (memory (v.chunkOffset - FREE_KEY_SIZE)).position = v.chunkOffset - FREE_KEY_SIZE ∧
    FREE_KEY_SIZE + v.valueSize ≤ (memory (v.chunkOffset - FREE_KEY_SIZE)).size

/--
The chunks of the values, the free chunks and some other chunks tile the content of the areas.
-/
structure Laid (areas : List Area) (memory : Nat → FreeKey) (values : List BigValue)
    (root : List (FreeKey × Nat)) (others : List Chunk) : Prop where
  ascending : Ascending root
  tiles : Range.Tiles ((values.map (valueChunk memory) ++ freeChunks root ++ others).map Chunk.range)
    (areas.map Area.content)
  placed : ∀ c ∈ values.map (valueChunk memory) ++ freeChunks root ++ others, Placed areas c
  roomy : ∀ v ∈ values, Roomy memory v

namespace Laid

variable {areas : List Area} {memory : Nat → FreeKey} {values : List BigValue}
  {root : List (FreeKey × Nat)} {others others' : List Chunk} {c : Chunk}

theorem perm (h : Laid areas memory values root others) (hperm : others'.Perm others) :
    Laid areas memory values root others' := by
  have hall : (values.map (valueChunk memory) ++ freeChunks root ++ others').Perm
      (values.map (valueChunk memory) ++ freeChunks root ++ others) := hperm.append_left _
  exact ⟨h.ascending, h.tiles.perm (hall.map _), fun c hc => h.placed c (hall.mem_iff.mp hc), h.roomy⟩

theorem placed_of_mem (h : Laid areas memory values root others) (hc : c ∈ others) :
    Placed areas c :=
  h.placed c (List.mem_append_right _ hc)

/-- The other chunks have nothing in common with the chunks of the values and the free chunks. -/
theorem apart (h : Laid areas memory values root (c :: others)) {d : Chunk}
    (hd : d ∈ values.map (valueChunk memory) ++ freeChunks root ++ others) :
    c.range.Apart d.range := by
  have hperm : (values.map (valueChunk memory) ++ freeChunks root ++ c :: others).Perm
      (c :: (values.map (valueChunk memory) ++ freeChunks root ++ others)) := List.perm_middle
  have htiles := h.tiles.perm (hperm.map _).symm
  rw [List.map_cons] at htiles
  exact htiles.apart_of_cons (List.mem_map_of_mem hd)

theorem position_ne (h : Laid areas memory values root (c :: others)) {d : Chunk}
    (hd : d ∈ values.map (valueChunk memory) ++ freeChunks root ++ others) :
    d.position ≠ c.position := by
  intro heq
  have hc := h.placed_of_mem List.mem_cons_self
  have hd' : Placed areas d := by
    apply h.placed
    rw [List.mem_append] at hd ⊢
    exact hd.imp_right (List.mem_cons_of_mem _)
  refine h.apart hd c.position ⟨Nat.le_refl _, ?_⟩ ⟨heq.le, ?_⟩
  . exact Nat.lt_add_of_pos_right hc.1
  . simp only [Chunk.range, heq]
    exact Nat.lt_add_of_pos_right hd'.1

/-- A free chunk is taken out of the trie. -/
theorem take (h : Laid areas memory values root others) {k : FreeKey} {t : Nat}
    (hk : lookup root k = some t) : Laid areas memory values (erase root k) (k.chunk :: others) := by
  have hroot : (freeChunks root).Perm (k.chunk :: freeChunks (erase root k)) :=
    (perm_erase h.ascending hk).map _
  have hperm : (values.map (valueChunk memory) ++ freeChunks (erase root k) ++ k.chunk :: others).Perm
      (values.map (valueChunk memory) ++ freeChunks root ++ others) := by
    rw [List.append_assoc, List.append_assoc]
    refine List.Perm.append_left _ ?_
    refine List.perm_middle.trans ?_
    rw [← List.cons_append]
    exact hroot.symm.append_right _
  exact ⟨ascending_erase h.ascending, h.tiles.perm (hperm.map _),
    fun c hc => h.placed c (hperm.mem_iff.mp hc), h.roomy⟩

/-- A chunk is put into the trie. -/
theorem put (h : Laid areas memory values root (c :: others)) (t : Nat) :
    Laid areas memory values (insert root c.key t) others := by
  have hc := h.placed_of_mem List.mem_cons_self
  have hnone : lookup root c.key = none := by
    rw [lookup_eq_none_iff]
    intro e he heq
    refine h.position_ne (d := e.1.chunk) ?_ ?_
    . exact List.mem_append_left _ (List.mem_append_right _ (List.mem_map_of_mem he))
    . rw [heq, Chunk.chunk_key hc.2.1]
  have hroot : (freeChunks (insert root c.key t)).Perm (c :: freeChunks root) := by
    have := (perm_insert (v := t) h.ascending hnone).map fun e => e.1.chunk
    rwa [List.map_cons, Chunk.chunk_key hc.2.1] at this
  have hperm : (values.map (valueChunk memory) ++ freeChunks (insert root c.key t) ++ others).Perm
      (values.map (valueChunk memory) ++ freeChunks root ++ c :: others) := by
    rw [List.append_assoc, List.append_assoc]
    refine List.Perm.append_left _ ?_
    refine (hroot.append_right _).trans ?_
    rw [List.cons_append]
    exact List.perm_middle.symm
  exact ⟨ascending_insert h.ascending, h.tiles.perm (hperm.map _),
    fun c hc => h.placed c (hperm.mem_iff.mp hc), h.roomy⟩

/-- What a write has to leave alone are the headers of the values. -/
theorem of_headers (h : Laid areas memory values root others) {memory' : Nat → FreeKey}
    (hmemory : ∀ v ∈ values,
      memory' (v.chunkOffset - FREE_KEY_SIZE) = memory (v.chunkOffset - FREE_KEY_SIZE)) :
    Laid areas memory' values root others := by
  have hmap : values.map (valueChunk memory') = values.map (valueChunk memory) := by
    apply List.map_congr_left
    intro v hv
    rw [valueChunk, hmemory v hv, ← valueChunk]
  refine ⟨h.ascending, ?_, ?_, ?_⟩
  . rw [hmap]
    exact h.tiles
  . rw [hmap]
    exact h.placed
  . intro v hv
    unfold Roomy
    rw [hmemory v hv]
    exact h.roomy v hv

theorem areas_eq (h : Laid areas memory values root others) {a b : Area} (ha : a ∈ areas)
    (hb : b ∈ areas) {x : Nat} (hax : a.content.Has x) (hbx : b.content.Has x) : a = b := by
  by_contra hne
  have hself : Range.Tiles (areas.map Area.content) (areas.map Area.content) :=
    ⟨fun _ => rfl, h.tiles.le⟩
  have hpairwise := List.pairwise_map.mp hself.pairwise
  have : Std.Symm fun a b : Area => a.content.Apart b.content := ⟨fun _ _ hab => hab.symm⟩
  have hapart := hpairwise.forall ha hb hne
  exact hapart x hax hbx

theorem split {p a b : Nat} {successor : Bool}
    (h : Laid areas memory values root (⟨p, a + b, successor⟩ :: others)) (ha : 0 < a) (hb : 0 < b)
    (heven : a % 2 = 0) :
    Laid areas memory values root (⟨p, a, true⟩ :: ⟨p + a, b, successor⟩ :: others) := by
  refine ⟨h.ascending, ?_, ?_, h.roomy⟩
  . apply h.tiles.of_owners
    intro x
    simp only [List.map_append, List.map_cons, Range.owners_append]
    congr 1
    exact Range.owners_split _ p a b x
  . obtain ⟨-, hp, area, harea, hlo, hhi, hlast⟩ := h.placed_of_mem List.mem_cons_self
    simp only [Chunk.stop] at hhi hlast
    intro c hc
    rcases List.mem_append.mp hc with hc | hc
    . exact h.placed c (List.mem_append_left _ hc)
    . rcases List.mem_cons.mp hc with rfl | hc
      . refine ⟨ha, hp, area, harea, hlo, ?_, ?_⟩
        . simp only [Chunk.stop]
          omega
        . simp only [Chunk.stop, true_iff]
          omega
      . rcases List.mem_cons.mp hc with rfl | hc
        . refine ⟨hb, ?_, area, harea, ?_, ?_, ?_⟩
          . simp only at hp ⊢
            omega
          . exact hlo.trans (Nat.le_add_right _ _)
          . simp only [Chunk.stop]
            omega
          . rw [hlast]
            simp only [Chunk.stop]
            omega
        . exact h.placed_of_mem (List.mem_cons_of_mem _ hc)

/-- A chunk and its successor make one chunk. -/
theorem merge {p a b : Nat} {successor : Bool}
    (h : Laid areas memory values root (⟨p, a, true⟩ :: ⟨p + a, b, successor⟩ :: others)) :
    Laid areas memory values root (⟨p, a + b, successor⟩ :: others) := by
  refine ⟨h.ascending, ?_, ?_, h.roomy⟩
  . apply h.tiles.of_owners
    intro x
    simp only [List.map_append, List.map_cons, Range.owners_append]
    congr 1
    exact (Range.owners_split _ p a b x).symm
  . obtain ⟨ha, hp, area, harea, hlo, hhi, hflag⟩ := h.placed_of_mem List.mem_cons_self
    obtain ⟨hb, -, area', harea', hlo', hhi', hlast⟩ :=
      h.placed_of_mem (List.mem_cons_of_mem _ List.mem_cons_self)
    simp only [Chunk.stop, true_iff] at ha hb hlo hhi hflag hlo' hhi' hlast
    have hsame : area = area' := by
      apply h.areas_eq harea harea' (x := p + a)
      . simp only [Range.Has, Area.content]
        omega
      . simp only [Range.Has, Area.content]
        omega
    rw [← hsame] at hhi' hlast
    intro c hc
    rcases List.mem_append.mp hc with hc | hc
    . exact h.placed c (List.mem_append_left _ hc)
    . rcases List.mem_cons.mp hc with rfl | hc
      . refine ⟨Nat.add_pos_left ha b, hp, area, harea, hlo, ?_, ?_⟩
        . simp only [Chunk.stop]
          omega
        . rw [hlast]
          simp only [Chunk.stop]
          omega
      . exact h.placed_of_mem (List.mem_cons_of_mem _ (List.mem_cons_of_mem _ hc))

theorem addArea (h : Laid areas memory values root others) {a : Area}
    (hfresh : BigMemory.Fresh areas a) (hsize : AREA_HEADER_SIZE < a.size) :
    Laid (a :: areas) memory values root
      (⟨a.contentOffset, a.stop - a.contentOffset, false⟩ :: others) := by
  refine ⟨h.ascending, ?_, ?_, h.roomy⟩
  . have hapart : ∀ r ∈ areas.map Area.content, a.content.Apart r := by
      intro r hr
      obtain ⟨b, hb, rfl⟩ := List.mem_map.mp hr
      intro x hax hbx
      have := hfresh.2 b hb
      simp only [Range.Has, Area.content, Area.contentOffset, Area.stop] at hax hbx this
      omega
    refine (h.tiles.add hapart).perm ?_
    rw [List.map_append, List.map_append, List.map_cons, List.map_append, List.map_append]
    exact List.perm_middle
  . have hold : ∀ c, Placed areas c → Placed (a :: areas) c :=
      fun c hc => hc.mono fun b hb => List.mem_cons_of_mem _ hb
    intro c hc
    rcases List.mem_append.mp hc with hc | hc
    . exact hold c (h.placed c (List.mem_append_left _ hc))
    . rcases List.mem_cons.mp hc with rfl | hc
      . have heven := hfresh.1
        simp only [AREA_SIZE] at heven
        refine ⟨?_, ?_, a, List.mem_cons_self, Nat.le_refl _, ?_, ?_⟩
        . simp only [Area.stop, Area.contentOffset]
          omega
        . simp only [Area.contentOffset, AREA_HEADER_SIZE]
          omega
        . simp only [Chunk.stop, Area.stop, Area.contentOffset]
          omega
        . simp only [Chunk.stop, Area.stop, Area.contentOffset, Bool.false_eq_true, false_iff]
          omega
      . exact hold c (h.placed_of_mem hc)

theorem header_ne (h : Laid areas memory values root (c :: others)) {v : BigValue}
    (hv : v ∈ values) : v.chunkOffset - FREE_KEY_SIZE ≠ c.position := by
  have hmem : valueChunk memory v ∈ values.map (valueChunk memory) ++ freeChunks root ++ others :=
    List.mem_append_left _ (List.mem_append_left _ (List.mem_map_of_mem hv))
  have hne := h.position_ne hmem
  rw [valueChunk] at hne
  rw [← (h.roomy v hv).2.1]
  exact hne

theorem setHeader (h : Laid areas memory values root (c :: others)) (k : FreeKey) :
    Laid areas (Function.update memory c.position k) values root (c :: others) := by
  apply h.of_headers
  intro v hv
  exact Function.update_of_ne (h.header_ne hv) _ _

/-- A chunk in hand becomes the chunk of a new value. -/
theorem addValue (h : Laid areas memory values root (c :: others)) {n : Nat}
    (hn : FREE_KEY_SIZE + n ≤ c.size) :
    Laid areas (Function.update memory c.position c.key) (⟨c.position + FREE_KEY_SIZE, n⟩ :: values)
      root others := by
  have h' := h.setHeader c.key
  have hc := h.placed_of_mem List.mem_cons_self
  have hheader : Function.update memory c.position c.key
      (c.position + FREE_KEY_SIZE - FREE_KEY_SIZE) = c.key := by
    rw [Nat.add_sub_cancel, Function.update_self]
  have hchunk : valueChunk (Function.update memory c.position c.key)
      ⟨c.position + FREE_KEY_SIZE, n⟩ = c := by
    rw [valueChunk, hheader, Chunk.chunk_key hc.2.1]
  have hperm : ((⟨c.position + FREE_KEY_SIZE, n⟩ :: values).map
      (valueChunk (Function.update memory c.position c.key)) ++ freeChunks root ++ others).Perm
      (values.map (valueChunk (Function.update memory c.position c.key)) ++ freeChunks root ++
        c :: others) := by
    rw [List.map_cons, hchunk, List.cons_append, List.cons_append]
    exact List.perm_middle.symm
  refine ⟨h.ascending, h'.tiles.perm (hperm.map _), fun d hd => h'.placed d (hperm.mem_iff.mp hd), ?_⟩
  intro v hv
  rcases List.mem_cons.mp hv with rfl | hv
  . refine ⟨Nat.le_add_left _ _, ?_, ?_⟩
    . rw [hheader, Chunk.position_key hc.2.1, Nat.add_sub_cancel]
    . rw [hheader]
      exact hn
  . exact h'.roomy v hv

theorem dropValue (h : Laid areas memory values root others) {v : BigValue} (hv : v ∈ values) :
    Laid areas memory (values.erase v) root (valueChunk memory v :: others) := by
  have hvalues : (values.map (valueChunk memory)).Perm
      (valueChunk memory v :: (values.erase v).map (valueChunk memory)) :=
    (List.perm_cons_erase hv).map _
  have hperm : ((values.erase v).map (valueChunk memory) ++ freeChunks root ++
      valueChunk memory v :: others).Perm
      (values.map (valueChunk memory) ++ freeChunks root ++ others) := by
    refine List.perm_middle.trans ?_
    rw [← List.cons_append, ← List.cons_append]
    exact (hvalues.symm.append_right _).append_right _
  exact ⟨h.ascending, h.tiles.perm (hperm.map _), fun c hc => h.placed c (hperm.mem_iff.mp hc),
    fun w hw => h.roomy w (List.mem_of_mem_erase hw)⟩

/-- No header of a value is in the bytes of another one. -/
theorem header_not_within (h : Laid areas memory values root others) {v w : BigValue}
    (hv : v ∈ values) (hw : w ∈ values) :
    ¬(v.chunkOffset - FREE_KEY_SIZE < w.chunkOffset - FREE_KEY_SIZE ∧
      w.chunkOffset - FREE_KEY_SIZE < v.chunkOffset + v.valueSize) := by
  rintro ⟨hlo, hhi⟩
  obtain ⟨hv₁, hv₂, hv₃⟩ := h.roomy v hv
  have hw₂ := (h.roomy w hw).2.1
  have hne : w ≠ v := by
    rintro rfl
    omega
  have hdrop := h.dropValue hv
  have hmem : valueChunk memory w ∈ (values.erase v).map (valueChunk memory) ++ freeChunks root ++
      others := by
    refine List.mem_append_left _ (List.mem_append_left _ (List.mem_map_of_mem ?_))
    exact (List.mem_erase_of_ne hne).mpr hw
  have hplaced : Placed areas (valueChunk memory w) := by
    apply h.placed
    exact List.mem_append_left _ (List.mem_append_left _ (List.mem_map_of_mem hw))
  refine hdrop.apart hmem (w.chunkOffset - FREE_KEY_SIZE) ?_ ?_
  . simp only [Range.Has, Chunk.range, valueChunk, FreeKey.chunk, hv₂]
    omega
  . have hsize := hplaced.1
    simp only [valueChunk, FreeKey.chunk] at hsize
    simp only [Range.Has, Chunk.range, valueChunk, FreeKey.chunk, hw₂]
    omega

end Laid
end Leaves
