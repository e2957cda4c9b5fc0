import Leaves.Multi.Enumeration

/-!
Runs of the cursor of a confluence against a cursor over the view. `next` and `prev` rely on the
cursors of the sources, which stand elsewhere when the source does not have the key of a `find`, or
when the cursor turns round.
-/

namespace Leaves

open OrdMap

namespace ConfluenceCursor

section Conditions

variable (aspect : MergeAspect)

/-- All the cursors stand where a step of the cursor expects them: at its key or right behind. -/
def Ready (move : List (Key × Value) → Key → Option Key) (c : ConfluenceCursor) : Prop :=
  if c.pendingFind then
    Has (Source.view aspect c.sources) c.searchKey →
      ∀ s ∈ c.sources, s.found c.searchKey = true ∨ move s.data c.searchKey = none
  else
    c.valid = true →
      ∀ s ∈ c.cursors, s.pos = some c.searchKey ∨ s.pos = move s.source.data c.searchKey

instance (move : List (Key × Value) → Key → Option Key) (c : ConfluenceCursor) :
    Decidable (c.Ready aspect move) := by
  unfold Ready
  infer_instance

def ReadyFor (c : ConfluenceCursor) : Move Key → Prop
  | .next => c.Ready aspect OrdMap.next
  | .prev => c.Ready aspect OrdMap.prev
  | _ => True

instance (c : ConfluenceCursor) (move : Move Key) : Decidable (c.ReadyFor aspect move) := by
  unfold ReadyFor
  split <;> infer_instance

/-- Every step of a run finds the cursors where it expects them. -/
def Follows (c : ConfluenceCursor) : List (Move Key) → Prop
  | [] => True
  | move :: moves => c.ReadyFor aspect move ∧ ∀ c' ∈ c.step aspect move, c'.Follows moves

instance decidableFollows :
    (moves : List (Move Key)) → (c : ConfluenceCursor) → Decidable (c.Follows aspect moves)
  | [], _ => inferInstanceAs (Decidable True)
  | move :: moves, c =>
    have : ∀ c' : ConfluenceCursor, Decidable (c'.Follows aspect moves) := decidableFollows moves
    inferInstanceAs (Decidable (_ ∧ ∀ c' ∈ c.step aspect move, c'.Follows aspect moves))

end Conditions

variable {aspect : MergeAspect} {c : ConfluenceCursor} {pos : Option Key}

/-- The cursor is at a position of the view, with a `find` that may be left to do. -/
def Represents (aspect : MergeAspect) (c : ConfluenceCursor) (pos : Option Key) : Prop :=
  if c.pendingFind then
    pos = if Has (Source.view aspect c.sources) c.searchKey then some c.searchKey else none
  else c.Shows aspect pos

theorem candidates_find (k : Key) :
    ((c.cursors.map (SourceCursor.find k)).filter fun s =>
        s.pos = some k || s.source.isDeleted k).map (fun s => s.source.candidate k) =
      Source.candidates c.sources (fun s => s.found k || s.isDeleted k) k := by
  rw [Source.candidates, sources, List.filter_map, List.filter_map, List.map_map, List.map_map]
  congr 1
  apply List.filter_congr
  intro s _
  simp only [Function.comp_apply, SourceCursor.find]
  by_cases hfound : s.source.found k = true <;> simp [hfound]

/-- `find` says what the view says. -/
theorem resolveKey_eq (k : Key) :
    c.resolveKey aspect k =
      ({ c with cursors := c.cursors.map (SourceCursor.find k) },
        Candidate.resolve aspect k
          (Source.candidates c.sources (fun s => s.found k || s.isDeleted k) k)) := by
  rw [← candidates_find]
  rfl

theorem sources_find (cursors : List SourceCursor) (k : Key) :
    (cursors.map (SourceCursor.find k)).map (·.source) = cursors.map (·.source) := by
  rw [List.map_map]
  rfl

theorem materializeFull_spec (h : c.Represents aspect pos) :
    (c.materializeFull aspect).sources = c.sources ∧
      (c.materializeFull aspect).pendingFind = false ∧
      (c.materializeFull aspect).Shows aspect pos ∧
      (c.materializeFull aspect).cursors =
        if c.pendingFind then c.cursors.map (SourceCursor.find c.searchKey) else c.cursors := by
  unfold Represents at h
  unfold materializeFull
  split
  next hpending =>
    rw [if_pos hpending] at h
    rw [resolveKey_eq]
    have hlookup : lookup (Source.view aspect c.sources) c.searchKey = _ := Source.lookup_view _
    change _ = (Candidate.resolve aspect c.searchKey (Source.candidates c.sources
      (fun s => s.found c.searchKey || s.isDeleted c.searchKey) c.searchKey)).map (·.value)
      at hlookup
    have hsame := sources_find c.cursors c.searchKey
    match hw : Candidate.resolve aspect c.searchKey (Source.candidates c.sources
        (fun s => s.found c.searchKey || s.isDeleted c.searchKey) c.searchKey) with
    | some w =>
      rw [hw] at hlookup
      rw [if_pos (by rw [Has, hlookup]; rfl)] at h
      refine ⟨hsame, rfl, ?_, rfl⟩
      rw [h]
      refine ⟨rfl, rfl, ?_⟩
      simp only [sources, hsame]
      exact hlookup
    | none =>
      rw [hw] at hlookup
      rw [if_neg (by rw [Has, hlookup]; simp)] at h
      refine ⟨hsame, rfl, ?_, rfl⟩
      rw [h]
      rfl
  next hpending =>
    rw [if_neg hpending] at h
    exact ⟨rfl, by simpa using hpending, h, rfl⟩

section Step

variable {r : Key → Key → Prop} [DecidableRel r] [IsStrictTotalOrder Key r]
  {move : List (Key × Value) → Key → Option Key}

omit [IsStrictTotalOrder Key r] in
theorem sum_remaining_lt_rounds (cursors : List SourceCursor)
    (h : cursors.map (·.source) = c.sources) :
    (cursors.map (·.remaining r)).sum < c.rounds := by
  rw [rounds, ← h, List.map_map, Nat.lt_succ_iff]
  apply List.sum_le_sum
  intro s _
  exact s.remaining_le

/-- `first` and `last` come to the end of the view. -/
theorem startAt_spec (hmove : Steps r move) (hsettled : ∀ k, Source.Settled aspect c.sources k)
    {front : SourceCursor → SourceCursor} (hsource : ∀ s, (front s).source = s.source)
    (hfront : ∀ s, Nearest r (Has s.source.data) (front s).pos)
    (hview : Nearest r (Has (Source.view aspect c.sources)) pos) :
    ∃ c', c.startAt aspect r move front = some c' ∧ c'.sources = c.sources ∧
      c'.pendingFind = false ∧ c'.Shows aspect pos ∧ c'.Ahead move pos := by
  let c₀ : ConfluenceCursor := { c with cursors := c.cursors.map front, pendingFind := false }
  have hsources : c₀.sources = c.sources := by
    rw [sources, sources, List.map_map]
    exact List.map_congr_left fun s _ => hsource s
  have hat : ∀ s ∈ c₀.cursors, s.At r (fun _ => True) := by
    intro t ht
    obtain ⟨s, -, rfl⟩ := List.mem_map.mp ht
    apply (hfront s).congr
    simp [hsource]
  rw [← hsources] at hsettled
  obtain ⟨c', pos', hrun, hsources', hpending, hshows, hahead, hnear⟩ :=
    advance_spec hmove hsettled (fun _ _ _ _ => trivial) hat
      (sum_remaining_lt_rounds (c := c) c₀.cursors hsources)
  rw [hsources] at hsources' hnear
  have hpos : pos' = pos := by
    apply Nearest.unique _ hview
    exact hnear.congr fun x => by simp
  rw [hpos] at hshows hahead
  exact ⟨c', hrun, hsources', hpending, hshows, hahead⟩

/-- A cursor that is not at the key is behind it, where the others go to. -/
theorem ready_pos {k : Key} (h : c.Represents aspect (some k)) (hready : c.Ready aspect move) :
    ∀ s ∈ (c.materializeFull aspect).cursors, s.pos = some k ∨ s.pos = move s.source.data k := by
  obtain ⟨-, -, -, hcursors⟩ := materializeFull_spec h
  rw [hcursors]
  unfold Represents at h
  unfold Ready at hready
  by_cases hpending : c.pendingFind = true
  . rw [if_pos hpending] at h hready ⊢
    split at h
    next hhas =>
      rw [Option.some.injEq] at h
      rw [← h] at hhas hready ⊢
      intro t ht
      obtain ⟨s, hs, rfl⟩ := List.mem_map.mp ht
      rcases hready hhas s.source (List.mem_map_of_mem hs) with hfound | hnone
      . exact Or.inl (if_pos hfound)
      . by_cases hfound : s.source.found k = true
        . exact Or.inl (if_pos hfound)
        . exact Or.inr ((if_neg hfound).trans hnone.symm)
    next => simp at h
  . rw [if_neg hpending] at h hready ⊢
    obtain ⟨hvalid, hkey, -⟩ := h
    rw [hkey] at hready
    exact hready hvalid

omit [DecidableRel r] [IsStrictTotalOrder Key r] in
theorem at_moveFrom_of_pos (hmove : Steps r move) {k : Key} {s : SourceCursor}
    (h : s.pos = some k ∨ s.pos = move s.source.data k) : (s.moveFrom move k).At r (r k) := by
  have hpos : (s.moveFrom move k).pos = move s.source.data k := by
    unfold SourceCursor.moveFrom
    split
    . rfl
    next hne => exact h.resolve_left hne
  rw [SourceCursor.At, SourceCursor.source_moveFrom, hpos]
  exact hmove _ s.source.ascending k

/-- `next` and `prev` come to the neighbour in the view. -/
theorem stepFrom_spec (hmove : Steps r move) (hsettled : ∀ k, Source.Settled aspect c.sources k)
    (h : c.Represents aspect pos) (hready : c.Ready aspect move) :
    ∃ c', c.stepFrom aspect r move = some c' ∧ c'.sources = c.sources ∧ c'.pendingFind = false ∧
      c'.Shows aspect (pos.bind (move (Source.view aspect c.sources))) ∧
      c'.Ahead move (pos.bind (move (Source.view aspect c.sources))) := by
  obtain ⟨hsources, hpending, hshows, hcursors⟩ := materializeFull_spec h
  unfold stepFrom
  match pos with
  | none =>
    rw [Shows] at hshows
    exact ⟨_, by simp [hshows], hsources, hpending, hshows, by simp [Ahead]⟩
  | some k =>
    obtain ⟨hvalid, hkey, -⟩ := hshows
    have hpos := ready_pos h hready
    rw [← hkey] at hpos ⊢
    generalize c.materializeFull aspect = d at hsources hpending hvalid hpos ⊢
    simp only [hvalid, Bool.not_true, Bool.false_eq_true, ↓reduceIte]
    let c₀ : ConfluenceCursor := { d with
      cursors := d.cursors.map (SourceCursor.moveFrom move d.searchKey) }
    have hsources₀ : c₀.sources = c.sources := by
      rw [← hsources]
      exact sources_moveFrom move _ _
    have hat : ∀ s ∈ c₀.cursors, s.At r (r d.searchKey) := by
      intro t ht
      obtain ⟨s, hs, rfl⟩ := List.mem_map.mp ht
      exact at_moveFrom_of_pos hmove (hpos s hs)
    rw [← hsources₀] at hsettled
    obtain ⟨c', pos', hrun, hsources', hpending', hshows', hahead, hnear⟩ :=
      advance_spec hmove hsettled (fun x y => trans_of r) hat
        (sum_remaining_lt_rounds c₀.cursors (hsources₀.trans hsources.symm))
    rw [hsources₀] at hsources' hnear
    have heq : pos' = move (Source.view aspect c.sources) d.searchKey :=
      hnear.unique (hmove _ Source.ascending_view _)
    rw [heq] at hshows' hahead
    refine ⟨c', ?_, hsources', hpending'.trans hpending, hshows', hahead⟩
    rw [← hrun]
    simp only [c₀, hvalid]

end Step

theorem represents_of_shows (hpending : c.pendingFind = false) (h : c.Shows aspect pos) :
    c.Represents aspect pos := by
  unfold Represents
  rw [if_neg (by simp [hpending])]
  exact h

theorem represents_create (sources : List Source) : (create sources).Represents aspect none := by
  apply represents_of_shows <;> rfl

theorem nearest_first_view (sources : List Source) :
    Nearest (· < ·) (Has (Source.view aspect sources)) (OrdMap.first (Source.view aspect sources)) :=
  nearest_first Source.ascending_view

theorem nearest_last_view (sources : List Source) :
    Nearest (· > ·) (Has (Source.view aspect sources)) (OrdMap.last (Source.view aspect sources)) :=
  nearest_last Source.ascending_view

theorem first_spec (hsettled : ∀ k, Source.Settled aspect c.sources k) :
    ∃ c', c.first aspect = some c' ∧ c'.sources = c.sources ∧ c'.pendingFind = false ∧
      c'.Shows aspect (OrdMap.first (Source.view aspect c.sources)) ∧
      c'.Ahead OrdMap.next (OrdMap.first (Source.view aspect c.sources)) :=
  startAt_spec steps_next hsettled (fun _ => rfl) (fun s => nearest_first s.source.ascending)
    (nearest_first_view _)

theorem last_spec (hsettled : ∀ k, Source.Settled aspect c.sources k) :
    ∃ c', c.last aspect = some c' ∧ c'.sources = c.sources ∧ c'.pendingFind = false ∧
      c'.Shows aspect (OrdMap.last (Source.view aspect c.sources)) ∧
      c'.Ahead OrdMap.prev (OrdMap.last (Source.view aspect c.sources)) :=
  startAt_spec steps_prev hsettled (fun _ => rfl) (fun s => nearest_last s.source.ascending)
    (nearest_last_view _)

/-- A step of the cursor is a step in the view. -/
theorem step_spec (hsettled : ∀ k, Source.Settled aspect c.sources k)
    (h : c.Represents aspect pos) {m : Move Key} (hready : c.ReadyFor aspect m) :
    ∃ c', c.step aspect m = some c' ∧ c'.sources = c.sources ∧
      c'.Represents aspect (seek (Source.view aspect c.sources) pos m) := by
  cases m with
  | find k =>
    refine ⟨c.find k, rfl, rfl, ?_⟩
    unfold Represents
    simp only [find, ↓reduceIte]
    rfl
  | first =>
    obtain ⟨c', hstep, hsources, hpending, hshows, -⟩ := first_spec hsettled
    exact ⟨c', hstep, hsources, represents_of_shows hpending hshows⟩
  | last =>
    obtain ⟨c', hstep, hsources, hpending, hshows, -⟩ := last_spec hsettled
    exact ⟨c', hstep, hsources, represents_of_shows hpending hshows⟩
  | next =>
    obtain ⟨c', hstep, hsources, hpending, hshows, -⟩ := stepFrom_spec steps_next hsettled h hready
    exact ⟨c', hstep, hsources, represents_of_shows hpending hshows⟩
  | prev =>
    obtain ⟨c', hstep, hsources, hpending, hshows, -⟩ := stepFrom_spec steps_prev hsettled h hready
    exact ⟨c', hstep, hsources, represents_of_shows hpending hshows⟩

theorem run_spec (hsettled : ∀ k, Source.Settled aspect c.sources k)
    (h : c.Represents aspect pos) {moves : List (Move Key)} (hfollows : c.Follows aspect moves) :
    ∃ c', c.run aspect moves = some c' ∧ c'.sources = c.sources ∧
      c'.Represents aspect (moves.foldl (seek (Source.view aspect c.sources)) pos) := by
  induction moves generalizing c pos with
  | nil => exact ⟨c, rfl, rfl, h⟩
  | cons m moves ih =>
    obtain ⟨hready, hrest⟩ := hfollows
    obtain ⟨c₁, hstep, hsources, h₁⟩ := step_spec hsettled h hready
    rw [← hsources] at hsettled
    obtain ⟨c₂, hrun, hsources₂, h₂⟩ := ih hsettled h₁ (hrest c₁ hstep)
    rw [hsources] at hsources₂ h₂
    refine ⟨c₂, ?_, hsources₂, h₂⟩
    rw [run, List.foldlM_cons, hstep]
    exact hrun

theorem observe_eq (h : c.Represents aspect pos) :
    c.observe aspect = entryAt (Source.view aspect c.sources) pos := by
  obtain ⟨hsources, -, hshows, -⟩ := materializeFull_spec h
  unfold observe
  match pos with
  | none =>
    rw [Shows] at hshows
    simp [hshows, entryAt]
  | some k =>
    obtain ⟨hvalid, hkey, hvalue⟩ := hshows
    rw [hsources] at hvalue
    simp [hvalid, hkey, entryAt, hvalue]

section Iterate

variable {r : Key → Key → Prop} [DecidableRel r] [IsStrictTotalOrder Key r]
  {move : List (Key × Value) → Key → Option Key}

/-- A cursor that goes on in one direction is always ready. -/
theorem ready_of_ahead (hpending : c.pendingFind = false) (hshows : c.Shows aspect pos)
    (hahead : c.Ahead move pos) : c.Ready aspect move := by
  unfold Ready
  rw [if_neg (by simp [hpending])]
  intro hvalid s hs
  match pos with
  | none => exact absurd hvalid (by simpa [Shows] using hshows)
  | some k =>
    rw [hshows.2.1]
    exact Or.inr (hahead k rfl s hs)

theorem iterate_spec (hmove : Steps r move) {m : Move Key}
    (hm : ∀ c : ConfluenceCursor, c.step aspect m = c.stepFrom aspect r move)
    (hm' : ∀ es p, OrdMap.step es p m = Option.bind p (move es))
    (hsettled : ∀ k, Source.Settled aspect c.sources k) (hpending : c.pendingFind = false)
    (hshows : c.Shows aspect pos) (hahead : c.Ahead move pos) (n : Nat) :
    ∃ c', c.run aspect (List.replicate n m) = some c' ∧ c'.sources = c.sources ∧
      c'.Represents aspect (walk (Source.view aspect c.sources) pos (List.replicate n m)) := by
  induction n generalizing c pos with
  | zero => exact ⟨c, rfl, rfl, represents_of_shows hpending hshows⟩
  | succ n ih =>
    obtain ⟨c₁, hstep, hsources, hpending₁, hshows₁, hahead₁⟩ :=
      stepFrom_spec hmove hsettled (represents_of_shows hpending hshows)
        (ready_of_ahead hpending hshows hahead)
    rw [← hsources] at hsettled
    obtain ⟨c₂, hrun, hsources₂, h₂⟩ := ih hsettled hpending₁ hshows₁ hahead₁
    rw [hsources] at hsources₂ h₂
    rw [← hm'] at h₂
    refine ⟨c₂, ?_, hsources₂, h₂⟩
    rw [run, List.replicate_succ, List.foldlM_cons, hm, hstep]
    exact hrun

end Iterate

/-- The entry at the end of a walk through the view. -/
theorem entryAt_getElem {es es' : List (Key × Value)} (h : Ascending es)
    (hsub : ∀ e ∈ es', e ∈ es) (n : Nat) : entryAt es (es'[n]?.map (·.1)) = es'[n]? := by
  match he : es'[n]? with
  | none => rfl
  | some e => exact entryAt_of_mem h (hsub e (List.mem_of_getElem? he))

theorem first_next_spec (hsettled : ∀ k, Source.Settled aspect c.sources k) (n : Nat) :
    ∃ c', c.run aspect (.first :: List.replicate n .next) = some c' ∧
      c'.observe aspect = (Source.view aspect c.sources)[n]? := by
  obtain ⟨c₁, hstep, hsources, hpending, hshows, hahead⟩ := first_spec hsettled
  rw [← hsources] at hsettled hshows hahead
  obtain ⟨c₂, hrun, hsources₂, h₂⟩ := iterate_spec steps_next (m := .next) (fun _ => rfl)
    (fun _ _ => rfl) hsettled hpending hshows hahead n
  refine ⟨c₂, ?_, ?_⟩
  . rw [run, List.foldlM_cons, step, hstep]
    exact hrun
  . have hview : Ascending (Source.view aspect c₁.sources) := Source.ascending_view
    have hwalk := walk_first_next hview none n
    rw [walk, List.foldl_cons, ← walk] at hwalk
    rw [observe_eq h₂, hsources₂, ← hsources]
    rw [← entryAt_getElem Source.ascending_view (fun _ he => he) n, ← hwalk]
    rfl

theorem last_prev_spec (hsettled : ∀ k, Source.Settled aspect c.sources k) (n : Nat) :
    ∃ c', c.run aspect (.last :: List.replicate n .prev) = some c' ∧
      c'.observe aspect = (Source.view aspect c.sources).reverse[n]? := by
  obtain ⟨c₁, hstep, hsources, hpending, hshows, hahead⟩ := last_spec hsettled
  rw [← hsources] at hsettled hshows hahead
  obtain ⟨c₂, hrun, hsources₂, h₂⟩ := iterate_spec steps_prev (m := .prev) (fun _ => rfl)
    (fun _ _ => rfl) hsettled hpending hshows hahead n
  refine ⟨c₂, ?_, ?_⟩
  . rw [run, List.foldlM_cons, step, hstep]
    exact hrun
  . have hview : Ascending (Source.view aspect c₁.sources) := Source.ascending_view
    have hwalk := walk_last_prev hview none n
    rw [walk, List.foldl_cons, ← walk] at hwalk
    rw [observe_eq h₂, hsources₂, ← hsources]
    rw [← entryAt_getElem Source.ascending_view (fun _ he => List.mem_reverse.mp he) n, ← hwalk]
    rfl

end ConfluenceCursor
end Leaves
