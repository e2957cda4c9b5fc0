import Leaves.Memory.Defrag

/-!
Runs of transactions on the memory of the big values. The headers of the chunks and the stack of the
free cursor do not go back with a rollback.
-/

namespace Leaves

open OrdMap

namespace BigMemory

/-- The chunks of the values, the free ones and the hot one. -/
def chunks (s : BigMemory) : List Chunk :=
  s.values.map (valueChunk s.memory) ++ freeChunks s.bigmem.root ++ hot s.bigmem

/-- The chunk ends where the next one of its area starts, or with the area. -/
def Neighbour (s : BigMemory) (c : Chunk) (a : Area) : Prop :=
  if c.hasSuccessor then ∃ d ∈ s.chunks, d.position = c.stop ∧ d.stop ≤ a.stop
  else c.stop = a.stop

/-- No two chunks overlap, they fill the areas, and their headers are right. -/
structure WellLaid (s : BigMemory) : Prop where
  disjoint : (s.chunks.map Chunk.range).Pairwise Range.Apart
  covers : ∀ x, (∃ c ∈ s.chunks, c.range.Has x) ↔ ∃ a ∈ s.areas, a.content.Has x
  neighbour : ∀ c ∈ s.chunks, ∃ a ∈ s.areas, a.contentOffset ≤ c.position ∧ c.stop ≤ a.stop ∧
    s.Neighbour c a
  room : ∀ v ∈ s.values, Roomy s.memory v

/-- A rollback does not leave nodes of its transaction on the stack of the free cursor, and `defrag`
finds the headers of free chunks only where they belong. -/
def Ready (s : BigMemory) : BigEvent → Prop
  | .rollback => s.stackChanged = false
  | .defrag oldest => ∀ s' ∈ s.start oldest,
      DefragsRight oldest (defragRounds s'.coolDown.bigmem.root) s'.coolDown.memory
        s'.coolDown.bigmem.root (first s'.coolDown.bigmem.root)
  | _ => True

instance (s : BigMemory) : (e : BigEvent) → Decidable (s.Ready e)
  | .rollback => inferInstanceAs (Decidable (_ = _))
  | .defrag oldest => inferInstanceAs (Decidable (∀ s' ∈ s.start oldest, DefragsRight _ _ _ _ _))
  | .start _ | .alloc _ _ | .write _ _ | .free _ | .commit => inferInstanceAs (Decidable True)

/-- Every step of a run meets its condition. -/
def Follows (s : BigMemory) : List BigEvent → Prop
  | [] => True
  | e :: es => s.Ready e ∧ ∀ s' ∈ s.step e, s'.Follows es

instance decidableFollows : (es : List BigEvent) → (s : BigMemory) → Decidable (s.Follows es)
  | [], _ => inferInstanceAs (Decidable True)
  | e :: es, s =>
    have : ∀ s' : BigMemory, Decidable (s'.Follows es) := decidableFollows es
    inferInstanceAs (Decidable (_ ∧ ∀ s' ∈ s.step e, s'.Follows es))

/-- The chunks tile the areas, and those a rollback goes back to do so too, as long as the stack of
the free cursor has not changed. -/
structure Inv (s : BigMemory) : Prop where
  tiled : s.Tiled (hot s.bigmem)
  kept : ∀ saved ∈ s.saved, s.stackChanged = false →
    Laid saved.areas s.memory saved.values saved.bigmem.root (hot saved.bigmem) ∧
      ∀ v ∈ saved.values, v ∈ s.values

variable {s s' : BigMemory}

theorem wellLaid (h : s.Tiled (hot s.bigmem)) : s.WellLaid := by
  have hcovers : ∀ x, (∃ c ∈ s.chunks, c.range.Has x) ↔ ∃ a ∈ s.areas, a.content.Has x := by
    intro x
    have hchunks : (∃ r ∈ s.chunks.map Chunk.range, r.Has x) ↔ ∃ c ∈ s.chunks, c.range.Has x := by
      simp
    have hareas : (∃ r ∈ s.areas.map Area.content, r.Has x) ↔ ∃ a ∈ s.areas, a.content.Has x := by
      simp
    rw [← hchunks, ← hareas]
    exact h.tiles.exists_iff x
  have hdisjoint : (s.chunks.map Chunk.range).Pairwise Range.Apart := h.tiles.pairwise
  refine ⟨hdisjoint, hcovers, ?_, h.roomy⟩
  intro c hc
  obtain ⟨hsize, -, a, ha, hlo, hhi, hlast⟩ := h.placed c hc
  refine ⟨a, ha, hlo, hhi, ?_⟩
  unfold Neighbour
  split
  next hsuccessor =>
    have hlt := hlast.mp hsuccessor
    have hin : a.content.Has c.stop := by
      simp only [Range.Has, Area.content, Chunk.stop] at hlt ⊢
      omega
    obtain ⟨d, hd, hdx⟩ := (hcovers c.stop).mpr ⟨a, ha, hin⟩
    obtain ⟨hdsize, -, b, hb, hblo, hbhi, -⟩ := h.placed d hd
    have hne : c ≠ d := by
      rintro rfl
      simp only [Range.Has, Chunk.range, Chunk.stop] at hdx
      omega
    have : Std.Symm fun c d : Chunk => c.range.Apart d.range := ⟨fun _ _ h => h.symm⟩
    have hapart := (List.pairwise_map.mp hdisjoint).forall hc hd hne
    have hposition : d.position = c.stop := by
      by_contra hother
      refine hapart (c.stop - 1) ?_ ?_
      . simp only [Range.Has, Chunk.range, Chunk.stop]
        omega
      . simp only [Range.Has, Chunk.range, Chunk.stop] at hdx hother ⊢
        omega
    have hab : a = b := by
      apply h.areas_eq ha hb hin
      simp only [Range.Has, Area.content, Chunk.range, Chunk.stop] at hdx hbhi ⊢
      omega
    rw [← hab] at hbhi
    exact ⟨d, hd, hposition, hbhi⟩
  next hnot =>
    have hnlt : ¬c.stop < a.stop := fun hlt => hnot (hlast.mpr hlt)
    omega

theorem inv_create : create.Inv := by
  refine ⟨⟨ascending_nil, ⟨fun _ => rfl, fun _ => Nat.zero_le _⟩, ?_, ?_⟩, ?_⟩
  . intro c hc
    simp [create, freeChunks, hot] at hc
  . intro v hv
    simp [create] at hv
  . intro saved hsaved
    simp [create] at hsaved

theorem Inv.start (h : s.Inv) {oldest : Nat} (hstart : s.start oldest = some s') : s'.Inv := by
  unfold BigMemory.start at hstart
  split at hstart
  next =>
    rw [Option.some.injEq] at hstart
    rw [← hstart]
    refine ⟨h.tiled, ?_⟩
    intro saved hsaved _
    simp only [Option.mem_some] at hsaved
    rw [← hsaved]
    exact ⟨h.tiled, fun v hv => hv⟩
  next => simp at hstart

theorem Inv.alloc (h : s.Inv) {size area : Nat} (halloc : s.alloc size area = some s') : s'.Inv := by
  have hallocated := alloc_spec h.tiled halloc
  refine ⟨hallocated.tiled, ?_⟩
  intro saved hsaved hchanged
  rw [hallocated.saved] at hsaved
  obtain ⟨hlaid, hsub⟩ := h.kept saved hsaved (hallocated.unchanged hchanged)
  refine ⟨hlaid.of_headers fun v hv => hallocated.headers v (hsub v hv), ?_⟩
  obtain ⟨w, hvalues, -⟩ := hallocated.value
  intro v hv
  rw [hvalues]
  exact List.mem_cons_of_mem _ (hsub v hv)

theorem Inv.write (h : s.Inv) {v : BigValue} {contents : Nat → FreeKey} (hv : v ∈ s.values) :
    (s.write v contents).Inv := by
  have hheaders := write_spec h.tiled hv contents
  refine ⟨h.tiled.of_headers hheaders, ?_⟩
  intro saved hsaved hchanged
  obtain ⟨hlaid, hsub⟩ := h.kept saved hsaved hchanged
  exact ⟨hlaid.of_headers fun w hw => hheaders w (hsub w hw), hsub⟩

theorem Inv.free (h : s.Inv) {v : BigValue} (hv : v ∈ s.values) : (s.free v).Inv := by
  refine ⟨free_spec h.tiled hv, ?_⟩
  intro saved _ hchanged
  simp [BigMemory.free, addChunk] at hchanged

theorem Inv.commit (h : s.Inv) : s.commit.Inv := by
  refine ⟨h.tiled, ?_⟩
  intro saved hsaved
  simp [BigMemory.commit] at hsaved

theorem Inv.rollback (h : s.Inv) {saved : BigSnapshot} (hsaved : s.saved = some saved)
    (hchanged : s.stackChanged = false) : (s.rollback saved).Inv := by
  refine ⟨(h.kept saved hsaved hchanged).1, ?_⟩
  intro other hother
  simp [BigMemory.rollback] at hother

/-- `defrag` comes to an end, and the chunks still tile the areas. -/
theorem Inv.defrag (h : s.Inv)
    (hright : DefragsRight s.startTxnId (defragRounds s.coolDown.bigmem.root) s.coolDown.memory
      s.coolDown.bigmem.root (first s.coolDown.bigmem.root)) :
    ∃ s', s.defrag = some s' ∧ s'.Tiled (hot s'.bigmem) := by
  obtain ⟨htiled, hhot, -, hstart⟩ := coolDown_spec h.tiled
  have hfirst : ∀ k ∈ first s.coolDown.bigmem.root, Has s.coolDown.bigmem.root k := by
    intro k hk
    have hnear := nearest_first htiled.ascending
    rw [hk] at hnear
    exact hnear.1
  have hahead := ahead_le (r := (· < ·)) s.coolDown.bigmem.root (first s.coolDown.bigmem.root)
  obtain ⟨memory, root, hloop, hlaid⟩ :=
    defragLoop_spec htiled hfirst (Nat.add_le_add_left hahead _) hright
  refine ⟨{ s.coolDown with memory, bigmem.root := root }, ?_, ?_⟩
  . unfold BigMemory.defrag
    simp only [Option.bind_eq_bind]
    rw [hstart, defragRounds, hloop]
    rfl
  . unfold hot at hhot ⊢
    simp only
    rw [hhot]
    exact hlaid

theorem step_defrag {oldest : Nat} (h : s.Inv) (hready : s.Ready (.defrag oldest))
    {s₁ : BigMemory} (hstart : s.start oldest = some s₁) :
    ∃ s', s.step (.defrag oldest) = some s' ∧ s'.Inv := by
  have h₁ := h.start hstart
  have hright := hready s₁ hstart
  have hoscillates : s₁.startTxnId = oldest := by
    unfold BigMemory.start at hstart
    split at hstart
    next =>
      rw [Option.some.injEq] at hstart
      rw [← hstart]
    next => simp at hstart
  rw [← hoscillates] at hright
  simp only [step, hstart, Option.bind_eq_bind, Option.bind_some]
  split
  next =>
    refine ⟨_, rfl, h₁.tiled, ?_⟩
    intro saved hsaved
    simp at hsaved
  next =>
    obtain ⟨s₂, hdefrag, htiled⟩ := h₁.defrag hright
    rw [hdefrag]
    refine ⟨_, rfl, htiled, ?_⟩
    intro saved hsaved
    simp [BigMemory.commit] at hsaved

/-- Every step keeps the chunks in order. -/
theorem Inv.step (h : s.Inv) {e : BigEvent} (hready : s.Ready e) (hstep : s.step e = some s') :
    s'.Inv := by
  cases e with
  | start oldest => exact h.start hstep
  | alloc size area =>
    simp only [BigMemory.step, Option.ite_none_right_eq_some] at hstep
    exact h.alloc hstep.2
  | write v contents =>
    simp only [BigMemory.step, Option.ite_none_right_eq_some, Option.some.injEq] at hstep
    rw [← hstep.2]
    exact h.write hstep.1.2
  | free v =>
    simp only [BigMemory.step, Option.ite_none_right_eq_some, Option.some.injEq] at hstep
    rw [← hstep.2]
    exact h.free hstep.1.2
  | commit =>
    simp only [BigMemory.step, Option.ite_none_right_eq_some, Option.some.injEq] at hstep
    rw [← hstep.2]
    exact h.commit
  | rollback =>
    simp only [BigMemory.step, Option.map_eq_some_iff] at hstep
    obtain ⟨saved, hsaved, rfl⟩ := hstep
    exact h.rollback hsaved hready
  | defrag oldest =>
    match hstart : s.start oldest with
    | none => simp [BigMemory.step, hstart] at hstep
    | some s₁ =>
      obtain ⟨s₂, hstep₂, h₂⟩ := step_defrag h hready hstart
      rw [hstep, Option.some.injEq] at hstep₂
      rw [hstep₂]
      exact h₂

theorem Inv.run (h : s.Inv) {es : List BigEvent} (hfollows : s.Follows es)
    (hrun : s.run es = some s') : s'.Inv := by
  induction es generalizing s with
  | nil =>
    rw [BigMemory.run, List.foldlM_nil] at hrun
    exact Option.some.inj hrun ▸ h
  | cons e es ih =>
    rw [BigMemory.run, List.foldlM_cons, Option.bind_eq_bind, Option.bind_eq_some_iff] at hrun
    obtain ⟨s₁, hstep, hrun⟩ := hrun
    exact ih (h.step hfollows.1 hstep) (hfollows.2 s₁ hstep) hrun

/-- With an area to fall back on an allocation comes to a value. -/
theorem alloc_isSome {size area : Nat}
    (hfresh : Fresh s.areas ⟨area, padding (padding (FREE_KEY_SIZE + size) MAX_PAGE_SIZE +
      AREA_HEADER_SIZE) AREA_SIZE⟩) : ∃ s', s.alloc size area = some s' := by
  unfold alloc
  simp only
  split
  . exact ⟨_, rfl⟩
  . unfold takeChunk
    split
    . exact ⟨_, rfl⟩
    . simp only
      rw [if_pos hfresh]
      exact ⟨_, rfl⟩

/-- The chunks of the values, the free chunks and the hot chunk tile the areas, `alloc` has room for
the value and `defrag` comes to an end. -/
theorem bigMemory (events : List BigEvent) (h : create.Follows events) {s : BigMemory}
    (hrun : create.run events = some s) :
    s.WellLaid ∧
      (∀ size area, s.saved.isSome = true →
        Fresh s.areas ⟨area, padding (padding (FREE_KEY_SIZE + size) MAX_PAGE_SIZE +
          AREA_HEADER_SIZE) AREA_SIZE⟩ →
        ∃ s' v, s.step (.alloc size area) = some s' ∧ s'.values = v :: s.values ∧
          FREE_KEY_SIZE + size ≤ (s'.header v).size) ∧
      (∀ oldest s₁, s.start oldest = some s₁ → s.Ready (.defrag oldest) →
        ∃ s', s.step (.defrag oldest) = some s') := by
  have hinv := inv_create.run h hrun
  refine ⟨wellLaid hinv.tiled, ?_, ?_⟩
  . intro size area hactive hfresh
    obtain ⟨s', halloc⟩ := alloc_isSome hfresh
    obtain ⟨v, hvalues, hroom⟩ := (alloc_spec hinv.tiled halloc).value
    refine ⟨s', v, ?_, hvalues, hroom⟩
    rw [step, if_pos hactive, halloc]
  . intro oldest s₁ hstart hready
    obtain ⟨s', hstep, -⟩ := step_defrag hinv hready hstart
    exact ⟨s', hstep⟩

/-- Two values that follow each other are freed and merged. -/
theorem bigMemory_merged :
    ∃ s, create.run [.start 1, .alloc 12272 2097152, .alloc 4080 0, .alloc 100 0, .commit, .start 2,
        .free ⟨2097192, 12272⟩, .free ⟨2109480, 4080⟩, .commit, .start 3, .commit, .defrag 4] =
          some s ∧
      s.bigmem.root = [(⟨16384, 2097177⟩, 3), (⟨2076648, 2117656⟩, 0)] ∧ s.WellLaid := by
  refine ⟨_, rfl, by decide +kernel, ?_⟩
  exact (bigMemory [.start 1, .alloc 12272 2097152, .alloc 4080 0, .alloc 100 0, .commit, .start 2,
    .free ⟨2097192, 12272⟩, .free ⟨2109480, 4080⟩, .commit, .start 3, .commit, .defrag 4]
    (by decide +kernel) rfl).1

/-- The first value has the header of the third one in its bytes, right where the hot chunk starts
that is cut off its chunk later. -/
theorem bigMemory_forged :
    ∃ s, create.run [.start 1, .alloc 12272 2097152, .alloc 4080 0, .alloc 4080 0, .alloc 2072560 0,
        .write ⟨2097192, 12272⟩ (fun x => if x = 2105368 then ⟨4096, 2113561⟩ else ⟨0, 0⟩), .commit,
        .start 2, .free ⟨2097192, 12272⟩, .free ⟨2113576, 4080⟩, .commit, .start 3, .commit,
        .start 4, .alloc 8176 0, .commit, .start 5, .free ⟨2097192, 8176⟩, .commit, .start 6,
        .commit, .defrag 7] = some s ∧ ¬s.WellLaid := by
  have hmap : (create.run [.start 1, .alloc 12272 2097152, .alloc 4080 0, .alloc 4080 0,
        .alloc 2072560 0,
        .write ⟨2097192, 12272⟩ (fun x => if x = 2105368 then ⟨4096, 2113561⟩ else ⟨0, 0⟩), .commit,
        .start 2, .free ⟨2097192, 12272⟩, .free ⟨2113576, 4080⟩, .commit, .start 3, .commit,
        .start 4, .alloc 8176 0, .commit, .start 5, .free ⟨2097192, 8176⟩, .commit, .start 6,
        .commit, .defrag 7]).map (fun s => s.chunks.map Chunk.range) =
      some [⟨2117656, 2072576⟩, ⟨2109464, 4096⟩, ⟨4190232, 4072⟩, ⟨2105368, 4096⟩,
        ⟨2097176, 12288⟩] := by decide +kernel
  obtain ⟨s, hrun, hranges⟩ := Option.map_eq_some_iff.mp hmap
  refine ⟨s, hrun, ?_⟩
  intro h
  have hdisjoint := h.disjoint
  rw [hranges, List.pairwise_iff_getElem] at hdisjoint
  exact hdisjoint 3 4 (by decide) (by decide) (by decide) 2105368 (by decide) (by decide)

end BigMemory
end Leaves
