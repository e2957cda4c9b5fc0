import Leaves.Multi.View

/-!
What the cursor of a confluence shows. `find` looks for a key in the deleted keys of all the
sources, iterating only in those of the sources that have a value for it.
-/

namespace Leaves

open OrdMap

namespace Source

/-- The source knows of a key only that it is deleted. -/
def Lone (s : Source) (k : Key) : Prop := s.found k = false ∧ s.isDeleted k = true

instance (s : Source) (k : Key) : Decidable (s.Lone k) := inferInstanceAs (Decidable (_ ∧ _))

variable (aspect : MergeAspect) (sources : List Source)

/-- The value of the source is taken whatever the sources in front of it say. -/
def Overrides (s : Source) (k : Key) : Prop :=
  s.found k = true ∧ s.isDeleted k = false ∧ aspect.mayMergeAdd k (s.value k) = true ∧
    ∀ t ∈ sources, t.found k = true → aspect.mayMergeOverwrite k (t.value k) (s.value k) = true

/--
A deletion by a source without a value for the key is refused, comes before all the values or is
made up for by a later value.
-/
def Settled (k : Key) : Prop :=
  ∀ l s r, StableSort.sort txnId sources = l ++ s :: r → s.Lone k →
    aspect.mayMergeDelete k = true → (∃ t ∈ l, t.found k = true) →
    ∃ t ∈ r, t.Overrides aspect sources k

theorem settled_of_not_lone {k : Key} (h : ∀ s ∈ sources, ¬s.Lone k) :
    Settled aspect sources k := by
  intro l s r hsort hlone
  have hs : s ∈ StableSort.sort txnId sources := by simp [hsort]
  exact absurd hlone (h s ((StableSort.mem_sort _).mp hs))

/-- The candidates of the sources for a key. -/
def candidates (p : Source → Bool) (k : Key) : List Candidate :=
  (sources.filter p).map fun s => s.candidate k

variable {aspect sources} {k : Key}

theorem resolve_candidates (p : Source → Bool) :
    Candidate.resolve aspect k (candidates sources p k) =
      (candidates (StableSort.sort txnId sources) p k).foldl (Candidate.resolveStep aspect k)
        none := by
  rw [Candidate.resolve, candidates, StableSort.sort_map]
  rw [candidates, ← StableSort.sort_filter txnId]
  rfl

theorem candidates_cons_pos {p : Source → Bool} {s : Source} (h : p s = true) :
    candidates (s :: sources) p k = s.candidate k :: candidates sources p k := by
  rw [candidates, List.filter_cons_of_pos h, List.map_cons, ← candidates]

theorem candidates_cons_neg {p : Source → Bool} {s : Source} (h : ¬p s = true) :
    candidates (s :: sources) p k = candidates sources p k := by
  rw [candidates, List.filter_cons_of_neg h, ← candidates]

/-- A winner has the value of one of the sources with a value. -/
def Won (sources : List Source) (k : Key) (winner : Option Candidate) : Prop :=
  ∀ w ∈ winner, ∃ s ∈ sources, s.found k = true ∧ w.value = s.value k

theorem won_none : Won sources k none := by
  intro w hw
  simp at hw

theorem Won.mono {l : List Source} {w : Option Candidate} (h : Won sources k w)
    (hsub : ∀ s ∈ sources, s ∈ l) : Won l k w := by
  intro c hc
  obtain ⟨s, hs, hfound⟩ := h c hc
  exact ⟨s, hsub s hs, hfound⟩

theorem won_candidate {s : Source} (hs : s ∈ sources) (hfound : s.found k = true) :
    Won sources k (some (s.candidate k)) := by
  intro w hw
  rw [Option.mem_some] at hw
  rw [← hw]
  exact ⟨s, hs, hfound, rfl⟩

theorem Won.resolveStep {s : Source} {w : Option Candidate} (h : Won sources k w)
    (hs : s ∈ sources) (hfound : s.found k = true) :
    Won sources k (Candidate.resolveStep aspect k w (s.candidate k)) := by
  unfold Candidate.resolveStep
  split
  . split
    . exact won_none
    . exact h
  . split
    . split
      . exact won_candidate hs hfound
      . exact won_none
    . split
      . exact won_candidate hs hfound
      . exact h

theorem Overrides.resolveStep {s : Source} {w : Option Candidate}
    (h : s.Overrides aspect sources k) (hw : Won sources k w) :
    Candidate.resolveStep aspect k w (s.candidate k) = some (s.candidate k) := by
  unfold Candidate.resolveStep
  rw [candidate]
  simp only
  rw [h.2.1, if_neg Bool.false_ne_true]
  match w with
  | none =>
    simp only
    rw [if_pos h.2.2.1]
  | some c =>
    obtain ⟨t, ht, hfound, hvalue⟩ := hw c rfl
    simp only
    rw [if_pos]
    rw [hvalue]
    exact h.2.2.2 t ht hfound

/-- The sources that only know of a deletion make no difference in the end. -/
theorem foldl_settled (h : Settled aspect sources k) {rest l : List Source} {w w' : Option Candidate}
    (hsort : StableSort.sort txnId sources = l ++ rest) (hw : Won l k w) (hw' : Won l k w')
    (heq : w = w' ∨ ∃ s ∈ rest, s.Overrides aspect sources k) :
    (candidates rest (fun s => s.found k || s.isDeleted k) k).foldl
        (Candidate.resolveStep aspect k) w =
      (candidates rest (fun s => s.found k) k).foldl (Candidate.resolveStep aspect k) w' := by
  induction rest generalizing l w w' with
  | nil =>
    rcases heq with rfl | ⟨s, hs, -⟩
    . rfl
    . simp at hs
  | cons s rest ih =>
    have hsort' : StableSort.sort txnId sources = (l ++ [s]) ++ rest := by simp [hsort]
    have hl : ∀ t ∈ l, t ∈ l ++ [s] := fun t ht => List.mem_append_left _ ht
    have hsub : ∀ t ∈ l ++ [s], t ∈ sources := by
      intro t ht
      refine (StableSort.mem_sort txnId).mp ?_
      rw [hsort']
      exact List.mem_append_left _ ht
    cases hfound : s.found k with
    | true =>
      rw [candidates_cons_pos (by simp [hfound]), candidates_cons_pos hfound]
      rw [List.foldl_cons, List.foldl_cons]
      have hmem : s ∈ l ++ [s] := by simp
      refine ih hsort' ((hw.mono hl).resolveStep hmem hfound)
        ((hw'.mono hl).resolveStep hmem hfound) ?_
      rcases heq with rfl | ⟨t, ht, hover⟩
      . exact Or.inl rfl
      . rcases List.mem_cons.mp ht with rfl | ht
        . apply Or.inl
          rw [hover.resolveStep ((hw.mono hl).mono hsub), hover.resolveStep ((hw'.mono hl).mono hsub)]
        . exact Or.inr ⟨t, ht, hover⟩
    | false =>
      have hrest : (w = w' ∨ ∃ t ∈ s :: rest, t.Overrides aspect sources k) →
          w = w' ∨ ∃ t ∈ rest, t.Overrides aspect sources k := by
        rintro (heq | ⟨t, ht, hover⟩)
        . exact Or.inl heq
        . rcases List.mem_cons.mp ht with rfl | ht
          . exact absurd hover.1 (by simp [hfound])
          . exact Or.inr ⟨t, ht, hover⟩
      rw [candidates_cons_neg (p := fun s => s.found k) (by simp [hfound])]
      cases hdel : s.isDeleted k with
      | false =>
        rw [candidates_cons_neg (by simp [hfound, hdel])]
        exact ih hsort' (hw.mono hl) (hw'.mono hl) (hrest heq)
      | true =>
        rw [candidates_cons_pos (by simp [hdel]), List.foldl_cons]
        have hstep : Candidate.resolveStep aspect k w (s.candidate k) =
            if aspect.mayMergeDelete k then none else w := by
          unfold Candidate.resolveStep candidate
          simp [hdel]
        rw [hstep]
        split
        next hmay =>
          refine ih hsort' won_none (hw'.mono hl) ?_
          rcases hrest heq with rfl | hover
          . -- the deletion matters only if there has been a value
            match w with
            | none => exact Or.inl rfl
            | some c =>
              obtain ⟨t, ht, htfound, -⟩ := hw c rfl
              exact Or.inr (h l s rest hsort ⟨hfound, hdel⟩ hmay ⟨t, ht, htfound⟩)
          . exact Or.inr hover
        next => exact ih hsort' (hw.mono hl) (hw'.mono hl) (hrest heq)

/-- Resolving over the sources with a value comes to what `find` says. -/
theorem resolve_found (h : Settled aspect sources k) :
    (Candidate.resolve aspect k (candidates sources (fun s => s.found k) k)).map (·.value) =
      resolve aspect sources k := by
  change _ = (Candidate.resolve aspect k
    (candidates sources (fun s => s.found k || s.isDeleted k) k)).map (·.value)
  rw [resolve_candidates, resolve_candidates]
  have hsort := (List.nil_append (StableSort.sort txnId sources)).symm
  rw [foldl_settled h hsort won_none won_none (Or.inl rfl)]

/-- A key `find` finds is in the data of a source. -/
theorem found_of_resolve {v : Value} (h : resolve aspect sources k = some v) :
    ∃ s ∈ sources, s.found k = true := by
  by_contra hnone
  have hlone : ∀ (l : List Source), (∀ s ∈ l, s.found k = false) →
      (candidates l (fun s => s.found k || s.isDeleted k) k).foldl
        (Candidate.resolveStep aspect k) none = none := by
    intro l hl
    induction l with
    | nil => rfl
    | cons s l ih =>
      have ih := ih fun t ht => hl t (List.mem_cons_of_mem _ ht)
      cases hdel : s.isDeleted k with
      | false =>
        rw [candidates_cons_neg (by simp [hl s, hdel])]
        exact ih
      | true =>
        rw [candidates_cons_pos (by simp [hdel]), List.foldl_cons]
        have hstep : Candidate.resolveStep aspect k none (s.candidate k) = none := by
          unfold Candidate.resolveStep candidate
          simp [hdel]
        rw [hstep]
        exact ih
  change (Candidate.resolve aspect k
    (candidates sources (fun s => s.found k || s.isDeleted k) k)).map (·.value) = _ at h
  rw [resolve_candidates, hlone] at h
  . simp at h
  . intro s hs
    by_contra hfound
    exact hnone ⟨s, (StableSort.mem_sort _).mp hs, by simpa using hfound⟩

theorem lookup_addKey (m : List (Key × Value)) (k k' : Key) :
    lookup (addKey aspect sources m k) k' =
      if k' = k then (resolve aspect sources k).or (lookup m k) else lookup m k' := by
  unfold addKey
  split
  next v hv =>
    rw [lookup_insert, hv]
    split <;> simp
  next hv =>
    rw [hv]
    split <;> simp [*]

theorem lookup_foldl_addKey (es m : List (Key × Value)) (k : Key) :
    lookup (es.foldl (fun m e => addKey aspect sources m e.1) m) k =
      if Has es k then (resolve aspect sources k).or (lookup m k) else lookup m k := by
  induction es generalizing m with
  | nil => simp [Has]
  | cons e es ih =>
    rw [List.foldl_cons, ih, lookup_addKey]
    have hcons : Has (e :: es) k ↔ k = e.1 ∨ Has es k := has_cons
    by_cases hk : k = e.1
    . rw [if_pos hk, if_pos (hcons.mpr (Or.inl hk)), ← hk]
      split
      . cases resolve aspect sources k <;> simp
      . rfl
    . rw [if_neg hk]
      simp only [hcons, hk, false_or]

/-- The view of the sources is the map of what `find` says. -/
theorem lookup_view (k : Key) : lookup (view aspect sources) k = resolve aspect sources k := by
  rw [view, lookup_foldl_addKey, lookup_nil]
  split
  . simp
  next hnot =>
    match h : resolve aspect sources k with
    | none => rfl
    | some v =>
      obtain ⟨s, hs, hfound⟩ := found_of_resolve h
      obtain ⟨w, hw⟩ := has_iff.mp hfound
      exact absurd (has_iff.mpr ⟨w, List.mem_flatMap.mpr ⟨s, hs, hw⟩⟩) hnot

theorem ascending_addKey {m : List (Key × Value)} (h : Ascending m) (k : Key) :
    Ascending (addKey aspect sources m k) := by
  unfold addKey
  split
  . exact ascending_insert h
  . exact h

theorem ascending_foldl_addKey {es m : List (Key × Value)} (h : Ascending m) :
    Ascending (es.foldl (fun m e => addKey aspect sources m e.1) m) := by
  induction es generalizing m with
  | nil => exact h
  | cons e es ih =>
    rw [List.foldl_cons]
    exact ih (ascending_addKey h e.1)

theorem ascending_view : Ascending (view aspect sources) :=
  ascending_foldl_addKey ascending_nil

theorem has_view : Has (view aspect sources) k ↔ ∃ v, resolve aspect sources k = some v := by
  rw [Has, lookup_view, Option.isSome_iff_exists]

end Source
end Leaves
