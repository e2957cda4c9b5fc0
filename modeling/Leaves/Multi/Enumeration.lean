import Mathlib.Algebra.Order.BigOperators.Group.List
import Mathlib.Algebra.Order.Group.Nat
import Leaves.Multi.Resolution

/-!
The merging loop of the cursor of a confluence comes to the nearest key of the view, as long as
every source cursor is at the nearest key of its source.
-/

namespace Leaves

open OrdMap

namespace SourceCursor

variable {r : Key → Key → Prop} {move : List (Key × Value) → Key → Option Key} {B : Key → Prop}

/-- The cursor is at the nearest key of its source in a part of the keys. -/
def At (r : Key → Key → Prop) (B : Key → Prop) (s : SourceCursor) : Prop :=
  Nearest r (fun x => Has s.source.data x ∧ B x) s.pos

@[simp]
theorem source_moveFrom (k : Key) (s : SourceCursor) : (s.moveFrom move k).source = s.source := by
  unfold moveFrom
  split <;> rfl

/-- The entries from the cursor on. -/
def remaining (r : Key → Key → Prop) [DecidableRel r] (s : SourceCursor) : Nat :=
  ahead r s.source.data s.pos

variable [DecidableRel r]

theorem remaining_le (s : SourceCursor) : s.remaining r ≤ s.source.data.length :=
  ahead_le _ _

theorem remaining_moveFrom [IsStrictTotalOrder Key r] (hmove : Steps r move) {s : SourceCursor}
    {k : Key} (hpos : s.pos = some k) (hk : Has s.source.data k) :
    (s.moveFrom move k).remaining r < s.remaining r := by
  have hnew : (s.moveFrom move k).pos = move s.source.data k := by rw [moveFrom, if_pos hpos]
  rw [remaining, remaining, hnew, source_moveFrom, hpos]
  exact ahead_move_lt hmove s.source.ascending hk

theorem remaining_moveFrom_le [IsStrictTotalOrder Key r] (hmove : Steps r move)
    {s : SourceCursor} (hat : s.At r B) (k : Key) :
    (s.moveFrom move k).remaining r ≤ s.remaining r := by
  by_cases hpos : s.pos = some k
  . rw [At, hpos] at hat
    exact (remaining_moveFrom hmove hpos hat.1.1).le
  . rw [moveFrom, if_neg hpos]

end SourceCursor

namespace ConfluenceCursor

variable {aspect : MergeAspect} {r : Key → Key → Prop} [DecidableRel r] [IsStrictTotalOrder Key r]
  {move : List (Key × Value) → Key → Option Key} {B : Key → Prop}

theorem nearest_foremost (front : Option Key) (c : SourceCursor) :
    Nearest r (fun x => front = some x ∨ c.pos = some x) (foremost r front c) := by
  unfold foremost
  match hpos : c.pos, front with
  | none, front => exact (Nearest.of_eq_some front).congr fun x => by simp
  | some k, none => exact (Nearest.of_eq_some (some k)).congr fun x => by simp
  | some k, some k' =>
    simp only
    split
    next hlt =>
      refine ⟨Or.inr rfl, ?_⟩
      rintro x (hx | hx)
      . rw [Option.some.injEq] at hx
        exact Or.inr (hx ▸ hlt)
      . rw [Option.some.injEq] at hx
        exact Or.inl hx.symm
    next hlt =>
      refine ⟨Or.inl rfl, ?_⟩
      rintro x (hx | hx)
      . rw [Option.some.injEq] at hx
        exact Or.inl hx.symm
      . rw [Option.some.injEq] at hx
        rw [← hx]
        rcases trichotomous_of r k k' with h | h | h
        . exact absurd h hlt
        . exact Or.inl h
        . exact Or.inr h

theorem nearest_frontKey (cursors : List SourceCursor) :
    Nearest r (fun x => ∃ s ∈ cursors, s.pos = some x) (frontKey r cursors) := by
  have h : ∀ front : Option Key,
      Nearest r (fun x => front = some x ∨ ∃ s ∈ cursors, s.pos = some x)
        (cursors.foldl (foremost r) front) := by
    induction cursors with
    | nil => exact fun front => (Nearest.of_eq_some front).congr fun x => by simp
    | cons c cursors ih =>
      intro front
      have := (nearest_foremost (r := r) front c).union (ih (foremost r front c))
      exact this.congr fun x => by simp [or_assoc]
  exact (h none).congr fun x => by simp

section Round

variable {cursors : List SourceCursor} {k : Key} (hat : ∀ s ∈ cursors, s.At r B)
  (hfront : frontKey r cursors = some k)

include hat hfront

theorem front_mem : ∃ s ∈ cursors, s.pos = some k ∧ Has s.source.data k ∧ B k := by
  have hnear := nearest_frontKey (r := r) cursors
  rw [hfront] at hnear
  obtain ⟨s, hs, hpos⟩ := hnear.1
  have h := hat s hs
  rw [SourceCursor.At, hpos] at h
  exact ⟨s, hs, hpos, h.1⟩

/-- No source has a key in front of the front key. -/
theorem front_le {s : SourceCursor} (hs : s ∈ cursors) {x : Key} (hx : Has s.source.data x)
    (hB : B x) : x = k ∨ r k x := by
  have hnear := nearest_frontKey (r := r) cursors
  rw [hfront] at hnear
  have h := hat s hs
  match hpos : s.pos with
  | none =>
    rw [SourceCursor.At, hpos] at h
    exact absurd ⟨hx, hB⟩ (h x)
  | some y =>
    rw [SourceCursor.At, hpos] at h
    have hky := hnear.2 y ⟨s, hs, hpos⟩
    rcases h.2 x ⟨hx, hB⟩ with rfl | hlt
    . exact hky
    . rcases hky with rfl | hky
      . exact Or.inr hlt
      . exact Or.inr (trans_of r hky hlt)

theorem pos_eq_front_iff {s : SourceCursor} (hs : s ∈ cursors) :
    s.pos = some k ↔ s.source.found k = true := by
  have hnear := nearest_frontKey (r := r) cursors
  rw [hfront] at hnear
  have h := hat s hs
  constructor
  . intro hpos
    rw [SourceCursor.At, hpos] at h
    exact h.1.1
  . intro hfound
    obtain ⟨-, -, -, -, hB⟩ := front_mem hat hfront
    match hpos : s.pos with
    | none =>
      rw [SourceCursor.At, hpos] at h
      exact absurd ⟨hfound, hB⟩ (h k)
    | some y =>
      rw [SourceCursor.At, hpos] at h
      rcases h.2 k ⟨hfound, hB⟩ with rfl | hlt
      . rfl
      . rcases hnear.2 y ⟨s, hs, hpos⟩ with rfl | hky
        . rfl
        . exact absurd hky (Std.Asymm.asymm _ _ hlt)

/-- Behind the front key all the cursors are at the nearest key behind it. -/
theorem at_moveFrom (hmove : Steps r move) (hB : ∀ x y, B x → r x y → B y) {s : SourceCursor}
    (hs : s ∈ cursors) : (s.moveFrom move k).At r (r k) := by
  rw [SourceCursor.At, SourceCursor.source_moveFrom]
  unfold SourceCursor.moveFrom
  obtain ⟨-, -, -, -, hk⟩ := front_mem hat hfront
  split
  next => exact hmove _ s.source.ascending k
  next hpos =>
    apply (hat s hs).congr
    intro x
    constructor
    . rintro ⟨hx, hxB⟩
      refine ⟨hx, (front_le hat hfront hs hx hxB).resolve_left ?_⟩
      intro heq
      rw [heq] at hx
      exact hpos ((pos_eq_front_iff hat hfront hs).mpr hx)
    . rintro ⟨hx, hlt⟩
      exact ⟨hx, hB k x hk hlt⟩

theorem candidates_front :
    (cursors.filter fun s => s.pos = some k).map (fun s => s.source.candidate k) =
      Source.candidates (cursors.map (·.source)) (fun s => s.found k) k := by
  rw [Source.candidates, List.filter_map, List.map_map]
  congr 1
  apply List.filter_congr
  intro s hs
  rw [Function.comp_apply, Bool.eq_iff_iff, decide_eq_true_iff]
  exact pos_eq_front_iff hat hfront hs

theorem sum_remaining_moveFrom (hmove : Steps r move) :
    ((cursors.map (SourceCursor.moveFrom move k)).map (·.remaining r)).sum <
      (cursors.map (·.remaining r)).sum := by
  rw [List.map_map]
  apply List.sum_lt_sum
  . intro s hs
    exact SourceCursor.remaining_moveFrom_le hmove (hat s hs) k
  . obtain ⟨s, hs, hpos, hk, -⟩ := front_mem hat hfront
    exact ⟨s, hs, SourceCursor.remaining_moveFrom hmove hpos hk⟩

end Round

/-- The cursor shows a key of the view, or it is not valid. -/
def Shows (aspect : MergeAspect) (c : ConfluenceCursor) : Option Key → Prop
  | none => c.valid = false
  | some k => c.valid = true ∧ c.searchKey = k ∧
    lookup (Source.view aspect c.sources) k = some c.valueStorage

/-- All the cursors are where a step in the direction of `move` comes to. -/
def Ahead (move : List (Key × Value) → Key → Option Key) (c : ConfluenceCursor) (pos : Option Key) :
    Prop :=
  ∀ k ∈ pos, ∀ s ∈ c.cursors, s.pos = move s.source.data k

theorem sources_moveFrom (move : List (Key × Value) → Key → Option Key) (cursors : List SourceCursor) (k : Key) :
    (cursors.map (SourceCursor.moveFrom move k)).map (·.source) = cursors.map (·.source) := by
  rw [List.map_map]
  apply List.map_congr_left
  intro s _
  exact SourceCursor.source_moveFrom k s

/-- The loop comes to the nearest key of the view. -/
theorem advance_spec (hmove : Steps r move) {fuel : Nat} {c : ConfluenceCursor}
    (hsettled : ∀ k, Source.Settled aspect c.sources k) (hB : ∀ x y, B x → r x y → B y)
    (hat : ∀ s ∈ c.cursors, s.At r B) (hfuel : (c.cursors.map (·.remaining r)).sum < fuel) :
    ∃ c' pos, advance aspect r move fuel c = some c' ∧ c'.sources = c.sources ∧
      c'.pendingFind = c.pendingFind ∧ c'.Shows aspect pos ∧ c'.Ahead move pos ∧
      Nearest r (fun x => Has (Source.view aspect c.sources) x ∧ B x) pos := by
  induction fuel generalizing c B with
  | zero => omega
  | succ fuel ih =>
    rw [advance]
    have hview : ∀ x, Has (Source.view aspect c.sources) x →
        ∃ s ∈ c.cursors, Has s.source.data x := by
      intro x hx
      obtain ⟨v, hv⟩ := Source.has_view.mp hx
      obtain ⟨_, hsource, hfound⟩ := Source.found_of_resolve hv
      obtain ⟨s, hs, rfl⟩ := List.mem_map.mp hsource
      exact ⟨s, hs, hfound⟩
    match hfront : frontKey r c.cursors with
    | none =>
      refine ⟨_, none, rfl, rfl, rfl, rfl, by simp [Ahead], ?_⟩
      rintro x ⟨hx, hxB⟩
      obtain ⟨s, hs, hsx⟩ := hview x hx
      have hnear := nearest_frontKey (r := r) c.cursors
      rw [hfront] at hnear
      have h := hat s hs
      match hpos : s.pos with
      | none =>
        rw [SourceCursor.At, hpos] at h
        exact h x ⟨hsx, hxB⟩
      | some y => exact hnear y ⟨s, hs, hpos⟩
    | some k =>
      simp only
      rw [candidates_front hat hfront]
      have hresolve := Source.resolve_found (hsettled k)
      rw [← Source.lookup_view] at hresolve
      have hle : ∀ x, Has (Source.view aspect c.sources) x ∧ B x → x = k ∨ r k x := by
        rintro x ⟨hx, hxB⟩
        obtain ⟨s, hs, hsx⟩ := hview x hx
        exact front_le hat hfront hs hsx hxB
      obtain ⟨-, -, -, -, hk⟩ := front_mem hat hfront
      have hmoved : ∀ s ∈ c.cursors.map (SourceCursor.moveFrom move k), s.At r (r k) := by
        intro t ht
        obtain ⟨s, hs, rfl⟩ := List.mem_map.mp ht
        exact at_moveFrom hat hfront hmove hB hs
      match hw : Candidate.resolve aspect k
          (Source.candidates (c.cursors.map (·.source)) (fun s => s.found k) k) with
      | some w =>
        rw [sources, hw] at hresolve
        have hsame := sources_moveFrom move c.cursors k
        let c' : ConfluenceCursor := { c with
          cursors := c.cursors.map (SourceCursor.moveFrom move k)
          searchKey := k
          valueStorage := w.value
          valid := true }
        have hshows : c'.Shows aspect (some k) := by
          refine ⟨rfl, rfl, ?_⟩
          rw [sources, hsame]
          exact hresolve.symm
        have hahead : c'.Ahead move (some k) := by
          intro k' hk' s hs
          rw [Option.mem_some] at hk'
          rw [← hk']
          exact (hmoved s hs).unique (hmove _ s.source.ascending k)
        have hhas : Has (Source.view aspect c.sources) k := by
          rw [Has, sources, ← hresolve]
          rfl
        exact ⟨c', some k, by rw [hw], hsame, rfl, hshows, hahead, ⟨hhas, hk⟩, hle⟩
      | none =>
        rw [sources, hw] at hresolve
        have hsum := sum_remaining_moveFrom hat hfront hmove
        have hsame := sources_moveFrom move c.cursors k
        have hnot : ¬Has (Source.view aspect c.sources) k := by
          rw [Has, sources, ← hresolve]
          simp
        let c₀ : ConfluenceCursor := { c with
          cursors := c.cursors.map (SourceCursor.moveFrom move k) }
        have hsources₀ : c₀.sources = c.sources := hsame
        rw [← hsources₀] at hsettled
        obtain ⟨c', pos, hrun, hsources, hpending, hshows, hahead, hnear⟩ :=
          ih (c := c₀) hsettled (fun x y => trans_of r) hmoved
            (Nat.lt_of_lt_of_le hsum (Nat.le_of_lt_succ hfuel))
        rw [hsources₀] at hsources hnear
        refine ⟨c', pos, by rw [hw]; exact hrun, hsources, hpending, hshows, hahead,
          hnear.congr ?_⟩
        -- the view has no key in front of the ones that are left
        intro x
        constructor
        . rintro ⟨hx, hlt⟩
          exact ⟨hx, hB k x hk hlt⟩
        . rintro ⟨hx, hxB⟩
          refine ⟨hx, (hle x ⟨hx, hxB⟩).resolve_left ?_⟩
          intro heq
          rw [heq] at hx
          exact hnot hx

end ConfluenceCursor
end Leaves
