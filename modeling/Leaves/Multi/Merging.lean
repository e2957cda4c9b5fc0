import Leaves.Multi.Confluence

/-!
Merging is invisible as long as the slots are merged in the order they were written in and the
transaction ids of the databases are in that order, too.
-/

namespace Leaves

open OrdMap Function Confluence

namespace Confluence

/-- What sources make of a value, the oldest first. -/
def overlay (tries : Nat → Tries) (k : Key) (v : Option Value) (sources : List Nat) : Option Value :=
  sources.foldl (fun v i => if (tries i).Holds k then lookup (tries i).data k else v) v

section Overlay

variable {tries tries' : Nat → Tries} {k : Key} {v w : Option Value} {l r : List Nat} {i : Nat}

theorem overlay_append : overlay tries k v (l ++ r) = overlay tries k (overlay tries k v l) r :=
  List.foldl_append

theorem overlay_cons : overlay tries k v (i :: r) =
    overlay tries k (if (tries i).Holds k then lookup (tries i).data k else v) r := rfl

theorem overlay_concat : overlay tries k v (l ++ [i]) =
    if (tries i).Holds k then lookup (tries i).data k else overlay tries k v l := by
  rw [overlay_append]
  rfl

theorem overlay_congr (h : ∀ j ∈ l, tries' j = tries j) :
    overlay tries' k v l = overlay tries k v l := by
  induction l generalizing v with
  | nil => rfl
  | cons j l ih =>
    rw [overlay_cons, overlay_cons, h j (by simp), ih fun x hx => h x (by simp [hx])]

theorem overlay_eq_self (h : ∀ j ∈ l, ¬ (tries j).Holds k) : overlay tries k v l = v := by
  induction l with
  | nil => rfl
  | cons j l ih => rw [overlay_cons, if_neg (h j (by simp)), ih fun x hx => h x (by simp [hx])]

theorem overlay_of_holds (h : ∃ j ∈ l, (tries j).Holds k) :
    overlay tries k v l = overlay tries k w l := by
  induction l generalizing v w with
  | nil => simp at h
  | cons j l ih =>
    rw [overlay_cons, overlay_cons]
    by_cases hj : (tries j).Holds k
    . rw [if_pos hj, if_pos hj]
    . simp only [List.mem_cons, exists_eq_or_imp, hj, false_or] at h
      exact ih h

/-- The newest source that holds the key. -/
theorem overlay_split (h : (tries i).Holds k) (hr : ∀ j ∈ r, ¬ (tries j).Holds k) :
    overlay tries k v (l ++ i :: r) = lookup (tries i).data k := by
  rw [overlay_append, overlay_cons, if_pos h, overlay_eq_self hr]

end Overlay

theorem lookup_applyDeletions (main deleted : List (Key × Value)) (k : Key) :
    lookup (applyDeletions main deleted) k =
      if (lookup deleted k).isSome then none else lookup main k := by
  unfold applyDeletions
  induction deleted generalizing main with
  | nil => simp
  | cons e deleted ih =>
    have hstep : lookup (if (lookup main e.1).isSome then erase main e.1 else main) k =
        if k = e.1 then none else lookup main k := by
      split
      . simp [lookup_erase]
      next h =>
        split
        next hk =>
          rw [hk]
          simpa using h
        . rfl
    rw [List.foldl_cons, ih, hstep, lookup_cons]
    by_cases hk : k = e.1
    . simp [hk]
    . simp [hk, Ne.symm hk]

/-- A merge gives a key the value of the tributary if it holds the key. -/
theorem lookup_merged {t : Tries} (h : t.WF) (main : List (Key × Value)) (k : Key) :
    lookup (mergeData (applyDeletions main t.deleted) t.data) k =
      if t.Holds k then lookup t.data k else lookup main k := by
  rw [mergeData, lookup_foldl_insert h.data, lookup_applyDeletions]
  cases hd : lookup t.data k with
  | some v => simp [Tries.Holds, Tries.found, hd]
  | none =>
    have hfound : t.found k = false := by simp [Tries.found, hd]
    simp only [Option.none_or, Tries.Holds, hfound, Bool.false_eq_true, false_or]
    rfl

/-- Merging a source moves what it holds behind what older sources hold. -/
theorem overlay_merged (tries : Nat → Tries) {main : List (Key × Value)} {l r : List Nat} {i : Nat}
    {k : Key} (hwf : (tries i).WF)
    (horder : (tries i).Holds k → (∃ j ∈ l, (tries j).Holds k) → ∃ j ∈ r, (tries j).Holds k) :
    overlay tries k
        (lookup (mergeData (applyDeletions main (tries i).deleted) (tries i).data) k) (l ++ r) =
      overlay tries k (lookup main k) (l ++ i :: r) := by
  rw [lookup_merged hwf, overlay_append, overlay_append, overlay_cons]
  by_cases hi : (tries i).Holds k
  . rw [if_pos hi, if_pos hi]
    by_cases hl : ∃ j ∈ l, (tries j).Holds k
    . exact overlay_of_holds (horder hi hl)
    . rw [overlay_eq_self fun j hj hk => hl ⟨j, hj, hk⟩]
  . rw [if_neg hi, if_neg hi]

end Confluence

/-- A run of the confluence beside what the producer has committed. -/
structure Trace where
  db : Confluence
  /-- what the last committed operations on a key say -/
  committed : Key → Option Value
  /-- the same with the operations of the open transaction -/
  opened : Key → Option Value
  /-- the slots that have been claimed and not been merged, in this order -/
  unmerged : List Nat

namespace Trace

def init (mainTxnId : Nat) (main : List (Key × Value)) : Trace :=
  ⟨.create mainTxnId main, lookup main, lookup main, []⟩

/-- What an event means for the producer: `db` is the confluence behind it. -/
def next (t : Trace) (db : Confluence) : ConfluenceEvent → Trace
  | .startTransaction =>
    if t.db.transaction.isSome then { t with db }
    else
      { t with
        db
        opened := t.committed
        unmerged := t.unmerged ++
          (db.writeSource.filter fun i => (db.slots i).state = .firstWriting).toList }
  | .value k v =>
    if MAX_KEY_SIZE < k.length then t else { t with db, opened := update t.opened k (some v) }
  | .remove k _ =>
    if MAX_KEY_SIZE < k.length then t else { t with db, opened := update t.opened k none }
  | .commit => { t with db, committed := if t.db.transaction.isSome then t.opened else t.committed }
  | .merge i => { t with db, unmerged := t.unmerged.erase i }
  | _ => { t with db }

def step (threshold : Nat) (t : Trace) (e : ConfluenceEvent) : Option Trace :=
  (t.db.step threshold e).map fun db => t.next db e

def run (threshold : Nat) (t : Trace) : List ConfluenceEvent → Option Trace
  | [] => some t
  | e :: es => (t.step threshold e).bind fun t => run threshold t es

/-- No older source that is merged later holds a key of the slot, unless a newer one does. -/
def MergeInOrder (t : Trace) (i : Nat) : Prop :=
  ∀ l r, t.unmerged = l ++ i :: r → ∀ k, (t.db.slots i).tries.Holds k →
    (∃ j ∈ l, (t.db.slots j).tries.Holds k) → ∃ j ∈ r, (t.db.slots j).tries.Holds k

/-- Among the sources that hold the key, the newest one has the latest transaction id. -/
def FindInOrder (t : Trace) (own : Option Nat) (k : Key) : Prop :=
  ∀ l i r, t.unmerged = l ++ i :: r → (t.db.slots i).tries.Holds k →
    (∀ j ∈ r, ¬ (t.db.slots j).tries.Holds k) →
      own ≠ some i ∧
      ((lookup t.db.main k).isSome → t.db.mainTxnId ≤ (t.db.slots i).txnId) ∧
      ∀ j ∈ l, own ≠ some j → (t.db.slots j).tries.Holds k →
        (t.db.slots j).txnId < (t.db.slots i).txnId ∨
          ((t.db.slots j).txnId = (t.db.slots i).txnId ∧ j < i)

/-- The cursor of the tributary comes to the key, a write clears its tombstone and no other one. -/
def WriteOk (t : Trace) : ConfluenceEvent → Prop
  | .value k _ => ∀ w n, t.db.transaction = some (w, n) → t.db.cursor.FindOk k ∧
      (w.data = [] → t.db.cursor.currentKey = []) ∧ w.Clears (t.db.cursor.find w.data k) k
  | .remove k _ => t.db.cursor.FindOk k
  | _ => True

/-- A run whose merges are in order and whose writes come to their keys. -/
def InOrder (threshold : Nat) (t : Trace) : List ConfluenceEvent → Prop
  | [] => True
  | e :: es => t.WriteOk e ∧ (∀ i, e = .merge i → t.MergeInOrder i) ∧
      ∀ t', t.step threshold e = some t' → InOrder threshold t' es

theorem inOrder_cons {threshold : Nat} {t u : Trace} {e : ConfluenceEvent}
    {es : List ConfluenceEvent} (hs : t.step threshold e = some u) (hw : t.WriteOk e)
    (hm : ∀ i, e = .merge i → t.MergeInOrder i) (h : u.InOrder threshold es) :
    t.InOrder threshold (e :: es) := by
  refine ⟨hw, hm, ?_⟩
  intro t' hs'
  rw [hs, Option.some.injEq] at hs'
  rw [← hs']
  exact h

/-- A slot that has been claimed and not been merged. -/
def Unmerged (state : SlotState) : Prop :=
  state = .firstWriting ∨ state = .writing ∨ state = .attached ∨ state = .merging

instance (state : SlotState) : Decidable (Unmerged state) := inferInstanceAs (Decidable (_ ∨ _))

/-- A slot that belongs to the producer. -/
def Owned (state : SlotState) : Prop :=
  state = .firstWriting ∨ state = .writing ∨ state = .attached

instance (state : SlotState) : Decidable (Owned state) := inferInstanceAs (Decidable (_ ∨ _))

structure Inv (t : Trace) : Prop where
  nodup : t.unmerged.Nodup
  mem : ∀ i, i ∈ t.unmerged ↔ Unmerged (t.db.slots i).state
  beyond : ∀ i, t.db.count ≤ i → (t.db.slots i).state = .empty
  wf : ∀ i, (t.db.slots i).tries.WF
  unwritten : ∀ i, (t.db.slots i).state = .empty ∨ (t.db.slots i).state = .firstWriting →
    (t.db.slots i).tries = .empty
  committed : ∀ k, overlay (fun i => (t.db.slots i).tries) k (lookup t.db.main k) t.unmerged =
    t.committed k
  newest : ∀ i, t.db.writeSource = some i → Owned (t.db.slots i).state →
    ∃ l, t.unmerged = l ++ [i]
  opened : ∀ w n, t.db.transaction = some (w, n) → ∃ i, t.db.writeSource = some i ∧
    ((t.db.slots i).state = .firstWriting ∨ (t.db.slots i).state = .writing) ∧ w.WF ∧
    (∀ k, (t.db.slots i).tries.Holds k → w.Holds k) ∧
    ∀ k, overlay (update (fun i => (t.db.slots i).tries) i w) k (lookup t.db.main k) t.unmerged =
      t.opened k
  cursor : ∀ w n, t.db.transaction = some (w, n) → t.db.cursor.Sound w.data
  attached : t.db.transaction = none → ∀ i, t.db.writeSource = some i →
    (t.db.slots i).state = .attached → t.db.cursor.Sound (t.db.slots i).tries.data

theorem inv_init (mainTxnId : Nat) (main : List (Key × Value)) : (init mainTxnId main).Inv where
  nodup := by simp [init]
  mem := by simp [init, Confluence.create, Tributary.fresh, Unmerged]
  beyond := by simp [init, Confluence.create, Tributary.fresh]
  wf := fun i => Tries.wf_empty
  unwritten := by simp [init, Confluence.create, Tributary.fresh]
  committed := by simp [init, overlay, Confluence.create]
  newest := by simp [init, Confluence.create]
  opened := by simp [init, Confluence.create]
  cursor := by simp [init, Confluence.create]
  attached := by simp [init, Confluence.create]

theorem tries_setState (s : Confluence) (i : Nat) (state : SlotState) :
    (fun j => ((s.setState i state).slots j).tries) = fun j => (s.slots j).tries := by
  funext j
  by_cases hj : j = i <;> simp [setState, setSlot, hj]

theorem state_setState (s : Confluence) (i j : Nat) (state : SlotState) :
    ((s.setState i state).slots j).state = if j = i then state else (s.slots j).state := by
  by_cases hj : j = i <;> simp [setState, setSlot, hj]

section Steps

variable {t : Trace} (h : t.Inv) {i : Nat}

include h

/-- A slot that is not merged gets another state, its tries stay. -/
theorem Inv.move (state : SlotState) (ws : Option Nat) (tr : Option (Tries × Nat))
    (cursor : MapCursor) (op : Key → Option Value) (hold : Unmerged (t.db.slots i).state) (hnew : Unmerged state)
    (hfirst : state ≠ .firstWriting)
    (hnewest : ∀ j, ws = some j → Owned ((t.db.setState i state).slots j).state →
      ∃ l, t.unmerged = l ++ [j])
    (hopened : ∀ w n, tr = some (w, n) → ∃ j, ws = some j ∧
      (((t.db.setState i state).slots j).state = .firstWriting ∨
        ((t.db.setState i state).slots j).state = .writing) ∧ w.WF ∧
      (∀ k, (t.db.slots j).tries.Holds k → w.Holds k) ∧
      ∀ k, overlay (update (fun i => (t.db.slots i).tries) j w) k (lookup t.db.main k) t.unmerged =
        op k)
    (hcursor : ∀ w n, tr = some (w, n) → cursor.Sound w.data)
    (hattached : tr = none → ∀ j, ws = some j →
      ((t.db.setState i state).slots j).state = .attached →
        cursor.Sound (t.db.slots j).tries.data) :
    Inv { t with
      db := { t.db.setState i state with writeSource := ws, cursor, transaction := tr }
      opened := op } where
  nodup := h.nodup
  mem := by
    intro j
    simp only
    rw [h.mem, state_setState]
    split
    next hj =>
      rw [hj]
      exact iff_of_true hold hnew
    . rfl
  beyond := by
    intro j hj
    have hempty := h.beyond j hj
    have hne : j ≠ i := by
      rintro rfl
      rw [hempty] at hold
      exact absurd hold (by decide)
    simp only [state_setState, hne, ↓reduceIte]
    exact hempty
  wf := by
    intro j
    exact (congrFun (tries_setState t.db i state) j).symm ▸ h.wf j
  unwritten := by
    intro j hj
    have htries := congrFun (tries_setState t.db i state) j
    simp only at htries hj ⊢
    rw [htries]
    rw [state_setState] at hj
    split at hj
    next hji =>
      rcases hj with hj | hj
      . rw [hj] at hnew
        exact absurd hnew (by decide)
      . exact absurd hj hfirst
    . exact h.unwritten j hj
  committed := by
    intro k
    simp only [tries_setState]
    exact h.committed k
  newest := hnewest
  opened := by
    intro w n hw
    obtain ⟨j, hj, hstate, hwf, hkeep, hop⟩ := hopened w n hw
    have htries : ((t.db.setState i state).slots j).tries = (t.db.slots j).tries :=
      congrFun (tries_setState t.db i state) j
    refine ⟨j, hj, hstate, hwf, ?_, ?_⟩
    . intro k hk
      rw [← htries] at hkeep
      exact hkeep k hk
    . intro k
      simp only [tries_setState]
      exact hop k
  cursor := hcursor
  attached := by
    intro htr j hj hstate
    have htries : ((t.db.setState i state).slots j).tries = (t.db.slots j).tries :=
      congrFun (tries_setState t.db i state) j
    simp only [htries]
    exact hattached htr j hj hstate

/-- A slot without data becomes the newest source. -/
theorem Inv.claimed (count : Nat) (slot : Tributary) (hi : ¬ Unmerged (t.db.slots i).state)
    (hslot : slot.state = .firstWriting) (htries : slot.tries = .empty) (hlt : i < count)
    (hle : t.db.count ≤ count) :
    Inv ⟨{ t.db with
        count
        slots := update t.db.slots i slot
        writeSource := some i
        cursor := .init
        transaction := some (.empty, 0) }, t.committed, t.committed, t.unmerged ++ [i]⟩ := by
  have hmem : i ∉ t.unmerged := by
    rw [h.mem]
    exact hi
  have hempty : (fun j => (update t.db.slots i slot j).tries) =
      update (fun j => (t.db.slots j).tries) i .empty := by
    funext j
    by_cases hj : j = i <;> simp [hj, htries]
  have hoverlay : ∀ k, overlay (update (fun j => (t.db.slots j).tries) i .empty) k
      (lookup t.db.main k) (t.unmerged ++ [i]) = t.committed k := by
    intro k
    rw [overlay_concat, if_neg (by simp [Tries.Holds, Tries.found, Tries.isDeleted, Tries.empty])]
    rw [← h.committed k]
    refine overlay_congr ?_
    intro j hj
    rw [update_of_ne]
    rintro rfl
    exact hmem hj
  refine ⟨?_, ?_, ?_, ?_, ?_, ?_, ?_, ?_, ?_, by simp⟩
  . simp only [List.nodup_append, h.nodup, List.nodup_singleton, List.mem_singleton, true_and]
    rintro j hj _ rfl rfl
    exact hmem hj
  . intro j
    by_cases hj : j = i
    . simp [hj, hslot, Unmerged]
    . simp [hj, h.mem]
  . intro j hj
    have hji : j ≠ i := by
      rintro rfl
      simp only at hj
      omega
    simp only at hj ⊢
    rw [update_of_ne hji]
    exact h.beyond j (by omega)
  . intro j
    by_cases hj : j = i
    . simp only [hj, update_self, htries]
      exact Tries.wf_empty
    . simp only [ne_eq, hj, not_false_eq_true, update_of_ne]
      exact h.wf j
  . intro j hj
    by_cases hji : j = i
    . simp only [hji, update_self, htries]
    . simp only [ne_eq, hji, not_false_eq_true, update_of_ne] at hj ⊢
      exact h.unwritten j hj
  . intro k
    simp only [hempty]
    exact hoverlay k
  . intro j hj _
    simp only [Option.some.injEq] at hj
    exact ⟨t.unmerged, by rw [hj]⟩
  . intro w n hw
    simp only [Option.some.injEq, Prod.mk.injEq] at hw
    refine ⟨i, rfl, Or.inl (by simp [hslot]), ?_, ?_, ?_⟩
    . rw [← hw.1]
      exact Tries.wf_empty
    . simp [← hw.1, htries]
    . intro k
      rw [← hw.1, hempty, update_idem]
      exact hoverlay k
  . intro w n _
    exact MapCursor.sound_init _

theorem Inv.claim {db : Confluence} {ws : Option Nat}
    (hc : ({ t.db with writeSource := ws } : Confluence).claim = some db) :
    ∃ i, db.writeSource = some i ∧ (db.slots i).state = .firstWriting ∧
      Inv ⟨db, t.committed, t.committed, t.unmerged ++ [i]⟩ := by
  unfold Confluence.claim at hc
  split at hc
  next i hfind =>
    have hempty : (t.db.slots i).state = .empty := by simpa using List.find?_some hfind
    have hlt : i < t.db.count := by simpa using List.mem_of_find?_eq_some hfind
    have htries := h.unwritten i (Or.inl hempty)
    rw [Option.some.injEq] at hc
    subst hc
    refine ⟨i, rfl, by simp [begin, setState, setSlot], ?_⟩
    have hinv := h.claimed (i := i) t.db.count
      { t.db.slots i with state := .firstWriting } (by rw [hempty]; decide) rfl htries hlt
      le_rfl
    simpa [begin, setState, setSlot, htries] using hinv
  next hfind =>
    split at hc
    . rw [Option.some.injEq] at hc
      subst hc
      refine ⟨t.db.count, rfl, by simp [begin, setSlot, Tributary.fresh], ?_⟩
      have hinv := h.claimed (i := t.db.count) (t.db.count + 1)
        (.fresh .firstWriting) (by rw [h.beyond _ le_rfl]; decide) rfl rfl (by omega)
        (by omega)
      simpa [begin, setSlot, Tributary.fresh] using hinv
    . simp at hc

theorem Inv.startTransaction {db : Confluence} (hs : t.db.startTransaction = some db) :
    (t.next db .startTransaction).Inv := by
  unfold Confluence.startTransaction at hs
  split at hs
  next htr =>
    rw [Option.some.injEq] at hs
    simp only [next, htr, ↓reduceIte]
    rw [← hs]
    exact h
  next htr =>
    have hclaim : ∀ ws, ({ t.db with writeSource := ws } : Confluence).claim = some db →
        (t.next db .startTransaction).Inv := by
      intro ws hc
      obtain ⟨i, hws, hstate, hinv⟩ := h.claim hc
      simpa [next, htr, hws, hstate, Option.filter] using hinv
    split at hs
    . exact hclaim _ hs
    next i hws =>
      split at hs
      next hstate =>
        rw [Option.some.injEq] at hs
        subst hs
        obtain ⟨l, hl⟩ := h.newest i hws (Or.inr (Or.inr hstate))
        have htries := congrFun (tries_setState t.db i .writing) i
        have hinv := h.move (i := i) .writing (some i)
          (some ((t.db.slots i).tries, 0)) t.db.cursor t.committed (by rw [hstate]; decide)
          (by decide) (by decide) ?_ ?_ ?_ (by simp)
        . simpa [next, htr, begin, state_setState, Option.filter, htries] using hinv
        . rintro j hj -
          rw [Option.some.injEq] at hj
          exact ⟨l, by rw [hl, hj]⟩
        . intro w n hw
          rw [Option.some.injEq, Prod.mk.injEq] at hw
          refine ⟨i, rfl, Or.inr (by rw [state_setState, if_pos rfl]), hw.1 ▸ h.wf i, ?_, ?_⟩
          . simp [← hw.1]
          . intro k
            rw [← hw.1, update_eq_self]
            exact h.committed k
        . intro w n hw
          rw [Option.some.injEq, Prod.mk.injEq] at hw
          rw [← hw.1]
          exact h.attached (by simpa using htr) i hws hstate
      next hstate =>
        rw [Option.some.injEq] at hs
        subst hs
        have hinv := h.claimed (i := i) t.db.count (.fresh .firstWriting)
          (by rw [hstate]; decide) rfl rfl ?_ le_rfl
        . simpa [next, htr, begin, setSlot, Tributary.fresh, Option.filter] using hinv
        . by_contra hlt
          rw [h.beyond i (by omega)] at hstate
          simp at hstate
      . exact hclaim none hs

/-- The open transaction goes on; `base` is what the other sources say. -/
theorem Inv.write {change : Tries → MapCursor → Option (Tries × MapCursor)} {db : Confluence}
    {op : Key → Option Value} (hs : t.db.write change = some db)
    (hchange : ∀ w n r, t.db.transaction = some (w, n) → w.WF → t.db.cursor.Sound w.data →
      change w t.db.cursor = some r → r.1.WF ∧ r.2.Sound r.1.data ∧
        (∀ k, w.Holds k → r.1.Holds k) ∧
        ∀ k base, t.opened k = (if w.Holds k then lookup w.data k else base) →
          op k = if r.1.Holds k then lookup r.1.data k else base) :
    Inv { t with db, opened := op } := by
  unfold Confluence.write at hs
  rw [Option.bind_eq_some_iff] at hs
  obtain ⟨⟨w, n⟩, htr, hs⟩ := hs
  rw [Option.map_eq_some_iff] at hs
  obtain ⟨r, hr, rfl⟩ := hs
  obtain ⟨i, hws, hstate, hww, hkept, hopened⟩ := h.opened w n htr
  obtain ⟨hwf, hsound, hkeep, hop⟩ := hchange w n r htr hww (h.cursor w n htr) hr
  refine ⟨h.nodup, h.mem, h.beyond, h.wf, h.unwritten, h.committed, h.newest, ?_, ?_, by simp⟩
  . intro w' n' hw'
    rw [Option.some.injEq, Prod.mk.injEq] at hw'
    obtain ⟨l, hl⟩ := h.newest i hws (hstate.imp id Or.inl)
    refine ⟨i, hws, hstate, hw'.1 ▸ hwf, ?_, ?_⟩
    . intro k hk
      rw [← hw'.1]
      exact hkeep k (hkept k hk)
    intro k
    have hmem : i ∉ l := by
      have := h.nodup
      rw [hl, List.nodup_append] at this
      exact fun hi => this.2.2 i hi i (by simp) rfl
    have hbase : ∀ u, overlay (update (fun i => (t.db.slots i).tries) i u) k
        (lookup t.db.main k) l =
          overlay (fun i => (t.db.slots i).tries) k (lookup t.db.main k) l := by
      intro u
      refine overlay_congr ?_
      intro j hj
      rw [update_of_ne]
      rintro rfl
      exact hmem hj
    have hk := hopened k
    rw [hl, overlay_concat, update_self, hbase] at hk
    show overlay (update (fun i => (t.db.slots i).tries) i w') k (lookup t.db.main k) t.unmerged =
      op k
    rw [hop k _ hk.symm, ← hw'.1, hl, overlay_concat, update_self, hbase]
  . intro w' n' hw'
    rw [Option.some.injEq, Prod.mk.injEq] at hw'
    rw [← hw'.1]
    exact hsound

theorem Inv.value {db : Confluence} {k : Key} {v : Value} (hs : t.db.value k v = some db)
    (hok : t.WriteOk (.value k v)) : (t.next db (.value k v)).Inv := by
  unfold Confluence.value at hs
  rw [next]
  split at hs
  next hlen =>
    rw [if_pos hlen]
    exact h
  next hlen =>
    rw [if_neg hlen]
    refine h.write hs ?_
    intro w n r htr hww hsound hr
    obtain ⟨hfind, hnew, hclears⟩ := hok w n htr
    have hlen : k.length ≤ MAX_KEY_SIZE := Nat.le_of_not_lt hlen
    have htarget : w.data = [] ∧ (t.db.cursor.find w.data k).currentKey = [] ∨
        (t.db.cursor.find w.data k).target = some k := by
      by_cases hnil : w.data = []
      . left
        refine ⟨hnil, ?_⟩
        rw [hsound.currentKey_find_nil hnil k]
        exact hnew hnil
      . exact Or.inr (hsound.target_find hlen hfind hnil)
    rw [Tries.value_eq_put hww v (hsound.find hfind) (MapCursor.key_find hlen hnew) htarget hclears,
      Option.some.injEq] at hr
    subst hr
    refine ⟨hww.put k v, ?_, ?_, ?_⟩
    . refine MapCursor.sound_at ?_
      intro hnil
      have := Tries.lookup_put w k v k
      rw [hnil] at this
      simp at this
    . intro k' hk
      exact (w.holds_put k v k').mpr (Or.inr hk)
    . intro k' base hk
      by_cases hkk : k' = k
      . simp [hkk, Tries.holds_put, Tries.lookup_put]
      . simp [hkk, Tries.holds_put, Tries.lookup_put, hk]

theorem Inv.remove {db : Confluence} {k : Key} {next : Option Key}
    (hs : t.db.remove k next = some db) (hok : t.WriteOk (.remove k next)) :
    (t.next db (.remove k next)).Inv := by
  unfold Confluence.remove at hs
  rw [Trace.next]
  split at hs
  next hlen =>
    rw [if_pos hlen]
    exact h
  next hlen =>
    rw [if_neg hlen]
    refine h.write hs ?_
    intro w n r htr hww hsound hr
    have hlen : k.length ≤ MAX_KEY_SIZE := Nat.le_of_not_lt hlen
    obtain ⟨hdelete, hsound'⟩ := Tries.removeKey_eq_delete hww (hsound.find hok) hlen
      (hsound.findOk_find hlen hok) hr
    rw [hdelete] at hsound' ⊢
    refine ⟨hww.delete k, hsound', ?_, ?_⟩
    . intro k' hk
      exact (w.holds_delete k k').mpr (Or.inr hk)
    . intro k' base hk
      by_cases hkk : k' = k
      . simp [hkk, Tries.holds_delete, Tries.lookup_delete]
      . simp [hkk, Tries.holds_delete, Tries.lookup_delete, hk]

/-- The slot gets the tries of the transaction. -/
theorem Inv.store (slot : Tributary) {w : Tries} {n : Nat} {ws : Option Nat}
    (htr : t.db.transaction = some (w, n)) (hi : t.db.writeSource = some i) (hw : slot.tries = w)
    (hnew : Unmerged slot.state) (hfirst : slot.state ≠ .firstWriting)
    (hws : ws = none ∨ ws = some i) :
    Inv { t with
      db := { t.db.setSlot i slot with writeSource := ws, transaction := none }
      committed := t.opened } := by
  obtain ⟨j, hj, hstate, hww, hkeep, hopened⟩ := h.opened w n htr
  obtain rfl : i = j := Option.some.inj (hi.symm.trans hj)
  obtain ⟨l, hl⟩ := h.newest i hi (hstate.imp id Or.inl)
  have htries : (fun j => ((t.db.setSlot i slot).slots j).tries) =
      update (fun j => (t.db.slots j).tries) i w := by
    funext j
    by_cases hj : j = i <;> simp [setSlot, hj, hw]
  have hold : Unmerged (t.db.slots i).state := by
    rcases hstate with hstate | hstate <;> (rw [hstate]; decide)
  refine ⟨h.nodup, ?_, ?_, ?_, ?_, ?_, ?_, by simp, by simp, ?_⟩
  . intro j
    simp only
    rw [h.mem]
    by_cases hj : j = i
    . simp [hj, setSlot, hnew, hold]
    . simp [hj, setSlot]
  . intro j hj
    have hempty := h.beyond j hj
    have hne : j ≠ i := by
      rintro rfl
      rw [hempty] at hold
      exact absurd hold (by decide)
    simpa [setSlot, hne] using hempty
  . intro j
    by_cases hj : j = i
    . simpa [setSlot, hj, hw] using hww
    . simpa [setSlot, hj] using h.wf j
  . intro j hj
    by_cases hji : j = i
    . simp only [setSlot, hji, update_self] at hj
      rcases hj with hj | hj
      . rw [hj] at hnew
        exact absurd hnew (by decide)
      . exact absurd hj hfirst
    . simp only [setSlot, ne_eq, hji, not_false_eq_true, update_of_ne] at hj ⊢
      exact h.unwritten j hj
  . intro k
    simp only [htries]
    exact hopened k
  . intro j hj _
    simp only at hj
    rcases hws with hws | hws
    . simp [hws] at hj
    . rw [hws, Option.some.injEq] at hj
      exact ⟨l, by rw [hl, hj]⟩
  . intro _ j hj _
    simp only at hj
    rcases hws with hws | hws
    . simp [hws] at hj
    . rw [hws, Option.some.injEq] at hj
      simp only [← hj, setSlot, update_self, hw]
      exact h.cursor w n htr

theorem Inv.commit (threshold : Nat) : (t.next (t.db.commit threshold) .commit).Inv := by
  unfold Confluence.commit
  split
  next i w n hws htr =>
    simp only [next, htr, Option.isSome_some, ↓reduceIte]
    split
    . exact h.store _ htr hws rfl (by simp [Unmerged]) (by simp) (Or.inl rfl)
    . have hinv := h.store ⟨.attached, (t.db.slots i).txnId + 1, w,
        (t.db.slots i).writeCount + n⟩ htr hws rfl (by simp [Unmerged]) (by simp) (Or.inr rfl)
      rw [← hws] at hinv
      exact hinv
  next hnone =>
    have htr : t.db.transaction = none := by
      cases htr : t.db.transaction with
      | none => rfl
      | some tr =>
        obtain ⟨i, hws, -⟩ := h.opened tr.1 tr.2 htr
        exact absurd htr (hnone i tr.1 tr.2 hws)
    simp only [next, htr, Option.isSome_none, Bool.false_eq_true, ↓reduceIte]
    exact h

theorem Inv.rollback : Inv { t with db := t.db.rollback } := by
  unfold Confluence.rollback
  split
  next i tr hws htr =>
    obtain ⟨w, n⟩ := tr
    obtain ⟨j, hj, hstate, -⟩ := h.opened w n htr
    obtain rfl : i = j := Option.some.inj (hws.symm.trans hj)
    obtain ⟨l, hl⟩ := h.newest i hws (hstate.imp id Or.inl)
    have hold : Unmerged (t.db.slots i).state := by
      rcases hstate with hstate | hstate <;> (rw [hstate]; decide)
    split
    . refine h.move _ _ none _ _ hold (by decide) (by decide) ?_ (by simp) (by simp) ?_
      . intro j hj _
        obtain rfl : i = j := Option.some.inj (hws.symm.trans hj)
        exact ⟨l, hl⟩
      . intro _ j hj _
        obtain rfl : i = j := Option.some.inj (hws.symm.trans hj)
        exact MapCursor.sound_refind _ _
    . exact h.move _ none none _ _ hold (by decide) (by decide) (by simp) (by simp) (by simp)
        (by simp)
  . exact h

theorem Inv.transaction_rollback : t.db.rollback.transaction = none := by
  unfold Confluence.rollback
  split
  . split <;> rfl
  next hnone =>
    cases htr : t.db.transaction with
    | none => rfl
    | some tr =>
      obtain ⟨i, hws, -⟩ := h.opened tr.1 tr.2 htr
      exact absurd htr (hnone i tr hws)

theorem Inv.release (htr : t.db.transaction = none) :
    Inv { t with db := t.db.releaseWriteSource } := by
  unfold Confluence.releaseWriteSource
  split
  . exact h
  next i hws =>
    split
    next hstate =>
      refine h.move _ none _ _ _ (by rw [hstate]; decide) (by decide) (by decide) (by simp) ?_
        h.cursor (by simp)
      intro w n hw
      rw [show t.db.transaction = some (w, n) from hw] at htr
      simp at htr
    . exact ⟨h.nodup, h.mem, h.beyond, h.wf, h.unwritten, h.committed, by simp, by simp [htr],
        h.cursor, by simp⟩

theorem Inv.markMerging {db : Confluence} (hs : t.db.markMerging i = some db) :
    Inv { t with db } := by
  unfold Confluence.markMerging at hs
  split at hs
  next hstate =>
    rw [Option.some.injEq] at hs
    subst hs
    refine h.move _ _ _ _ _ (by rw [hstate]; decide) (by decide) (by decide) ?_ ?_ h.cursor ?_
    . intro j hj howned
      rw [state_setState] at howned
      split at howned
      . exact absurd howned (by decide)
      . exact h.newest j hj howned
    . intro w n hw
      obtain ⟨j, hj, hstate', hrest⟩ := h.opened w n hw
      refine ⟨j, hj, ?_, hrest⟩
      rw [state_setState, if_neg]
      . exact hstate'
      . rintro rfl
        rw [hstate] at hstate'
        simp at hstate'
    . intro htr j hj hattached
      rw [state_setState] at hattached
      split at hattached
      . cases hattached
      . exact h.attached htr j hj hattached
  . simp at hs

omit h in
theorem exists_concat_of_append {l r l' : List Nat} {i j : Nat} (hne : j ≠ i)
    (hl : l ++ i :: r = l' ++ [j]) : ∃ r', r = r' ++ [j] := by
  have hlast := congrArg List.getLast? hl
  rw [List.getLast?_concat] at hlast
  rcases List.eq_nil_or_concat r with rfl | ⟨r', x, rfl⟩
  . rw [List.getLast?_concat, Option.some.injEq] at hlast
    exact absurd hlast.symm hne
  . rw [List.concat_eq_append, ← List.cons_append, ← List.append_assoc, List.getLast?_concat,
      Option.some.injEq] at hlast
    exact ⟨r', by rw [hlast, List.concat_eq_append]⟩

theorem Inv.merge {db : Confluence} (hs : t.db.merge i = some db) (horder : t.MergeInOrder i) :
    Inv { t with db, unmerged := t.unmerged.erase i } := by
  unfold Confluence.merge at hs
  simp only [Option.ite_none_right_eq_some, Option.some.injEq] at hs
  obtain ⟨hstate, rfl⟩ := hs
  have hmem : i ∈ t.unmerged := by
    rw [h.mem, hstate]
    decide
  obtain ⟨l, r, hl⟩ := List.append_of_mem hmem
  have hnodup := h.nodup
  rw [hl, List.nodup_append, List.nodup_cons] at hnodup
  have herase : t.unmerged.erase i = l ++ r := by
    rw [hl, List.erase_append_right _ fun hi => hnodup.2.2 i hi i (by simp) rfl,
      List.erase_cons_head]
  have hne : ∀ j, Owned ((t.db.setState i .merged).slots j).state → j ≠ i := by
    rintro j howned rfl
    rw [state_setState, if_pos rfl] at howned
    exact absurd howned (by decide)
  refine ⟨?_, ?_, ?_, ?_, ?_, ?_, ?_, ?_, h.cursor, ?_⟩
  . exact h.nodup.erase i
  . intro j
    simp only [h.nodup.mem_erase_iff, h.mem, state_setState]
    by_cases hj : j = i <;> simp [hj, Unmerged]
  . intro j hj
    have hempty := h.beyond j hj
    have hji : j ≠ i := by
      rintro rfl
      rw [hempty] at hstate
      simp at hstate
    simp only [state_setState, hji, ↓reduceIte]
    exact hempty
  . intro j
    exact (congrFun (tries_setState t.db i .merged) j).symm ▸ h.wf j
  . intro j hj
    have htries : ((t.db.setState i .merged).slots j).tries = (t.db.slots j).tries :=
      congrFun (tries_setState t.db i .merged) j
    simp only [state_setState] at hj
    split at hj
    . simp at hj
    . exact htries.trans (h.unwritten j hj)
  . intro k
    simp only [tries_setState, herase]
    rw [overlay_merged (fun j => (t.db.slots j).tries) (h.wf i) (horder l r hl k), ← hl]
    exact h.committed k
  . intro j hj howned
    have hji := hne j howned
    simp only [state_setState, hji, ↓reduceIte] at howned
    obtain ⟨l', hl'⟩ := h.newest j hj howned
    obtain ⟨r', hr⟩ := exists_concat_of_append hji (hl.symm.trans hl')
    exact ⟨l ++ r', by rw [herase, hr, List.append_assoc]⟩
  . intro w n hw
    obtain ⟨j, hj, hstate', hww, hkeep, hopened⟩ := h.opened w n hw
    have hji : j ≠ i := by
      rintro rfl
      rw [hstate] at hstate'
      simp at hstate'
    have htries : ((t.db.setState i .merged).slots j).tries = (t.db.slots j).tries :=
      congrFun (tries_setState t.db i .merged) j
    obtain ⟨l', hl'⟩ := h.newest j hj (hstate'.imp id Or.inl)
    obtain ⟨r', hr⟩ := exists_concat_of_append hji (hl.symm.trans hl')
    refine ⟨j, hj, ?_, hww, ?_, ?_⟩
    . simp only [state_setState, hji, ↓reduceIte]
      exact hstate'
    . intro k hk
      rw [← htries] at hkeep
      exact hkeep k hk
    . intro k
      simp only [tries_setState, herase]
      rw [← hopened k, hl]
      have hi : update (fun i => (t.db.slots i).tries) j w i = (t.db.slots i).tries :=
        update_of_ne hji.symm _ _
      rw [← hi]
      refine overlay_merged _ (by rw [hi]; exact h.wf i) ?_
      rw [hi]
      rintro hik ⟨x, hx, hxk⟩
      have hxj : x ≠ j := by
        rintro rfl
        exact hnodup.2.2 x hx x (by simp [hr]) rfl
      rw [update_of_ne hxj] at hxk
      obtain ⟨y, hy, hyk⟩ := horder l r hl k hik ⟨x, hx, hxk⟩
      refine ⟨y, hy, ?_⟩
      by_cases hyj : y = j
      . rw [hyj, update_self]
        exact hkeep k (hyj ▸ hyk)
      . rw [update_of_ne hyj]
        exact hyk
  . intro htr j hj hattached
    have htries : ((t.db.setState i .merged).slots j).tries = (t.db.slots j).tries :=
      congrFun (tries_setState t.db i .merged) j
    have hji := hne j (Or.inr (Or.inr hattached))
    simp only [state_setState, hji, ↓reduceIte] at hattached
    simp only [htries]
    exact h.attached htr j hj hattached

theorem Inv.recycle {db : Confluence} (hs : t.db.recycle i = some db) : Inv { t with db } := by
  unfold Confluence.recycle at hs
  simp only [Option.ite_none_right_eq_some, Option.some.injEq] at hs
  obtain ⟨⟨hstate, hws⟩, rfl⟩ := hs
  have hmem : ∀ j ∈ t.unmerged, j ≠ i := by
    rintro j hj rfl
    rw [h.mem, hstate] at hj
    exact absurd hj (by decide)
  have htries : ∀ j ∈ t.unmerged, ((t.db.setSlot i (.fresh .empty)).slots j).tries =
      (t.db.slots j).tries := by
    intro j hj
    simp [setSlot, hmem j hj]
  refine ⟨h.nodup, ?_, ?_, ?_, ?_, ?_, ?_, ?_, h.cursor, ?_⟩
  . intro j
    simp only
    rw [h.mem]
    by_cases hj : j = i
    . simp [hj, setSlot, Tributary.fresh, hstate, Unmerged]
    . simp [hj, setSlot]
  . intro j hj
    by_cases hji : j = i
    . simp [setSlot, hji, Tributary.fresh]
    . simpa [setSlot, hji] using h.beyond j hj
  . intro j
    by_cases hji : j = i
    . simpa [setSlot, hji, Tributary.fresh] using Tries.wf_empty
    . simpa [setSlot, hji] using h.wf j
  . intro j hj
    by_cases hji : j = i
    . simp [setSlot, hji, Tributary.fresh]
    . simp only [setSlot, ne_eq, hji, not_false_eq_true, update_of_ne] at hj ⊢
      exact h.unwritten j hj
  . intro k
    rw [← h.committed k]
    exact overlay_congr htries
  . intro j hj howned
    have hji : j ≠ i := by
      rintro rfl
      exact hws hj
    simp only [setSlot, ne_eq, hji, not_false_eq_true, update_of_ne] at howned
    exact h.newest j hj howned
  . intro w n hw
    obtain ⟨j, hj, hstate', hww, hkeep, hopened⟩ := h.opened w n hw
    have hji : j ≠ i := by
      rintro rfl
      exact hws hj
    refine ⟨j, hj, ?_, hww, ?_, ?_⟩
    . simpa [setSlot, hji] using hstate'
    . simpa [setSlot, hji] using hkeep
    . intro k
      rw [← hopened k]
      refine overlay_congr ?_
      intro x hx
      by_cases hxj : x = j
      . simp [hxj]
      . simp only [ne_eq, hxj, not_false_eq_true, update_of_ne]
        exact htries x hx
  . intro htr j hj hattached
    have hji : j ≠ i := by
      rintro rfl
      exact hws hj
    simp only [setSlot, ne_eq, hji, not_false_eq_true, update_of_ne] at hattached ⊢
    exact h.attached htr j hj hattached

theorem Inv.step {threshold : Nat} {e : ConfluenceEvent} {t' : Trace}
    (hs : t.step threshold e = some t') (hok : t.WriteOk e)
    (horder : ∀ i, e = .merge i → t.MergeInOrder i) :
    t'.Inv := by
  unfold Trace.step at hs
  rw [Option.map_eq_some_iff] at hs
  obtain ⟨db, hs, rfl⟩ := hs
  cases e with
  | startTransaction => exact h.startTransaction hs
  | value k v => exact h.value hs hok
  | remove k next => exact h.remove hs hok
  | commit =>
    simp only [Confluence.step, Option.some.injEq] at hs
    rw [← hs]
    exact h.commit threshold
  | rollback =>
    simp only [Confluence.step, Option.some.injEq] at hs
    rw [← hs]
    exact h.rollback
  | destroy =>
    simp only [Confluence.step, Option.some.injEq] at hs
    rw [← hs]
    exact h.rollback.release h.transaction_rollback
  | markMerging i => exact h.markMerging hs
  | merge i => exact h.merge hs (horder i rfl)
  | recycle i => exact h.recycle hs

end Steps

theorem Inv.run {threshold : Nat} {es : List ConfluenceEvent} {t t' : Trace} (h : t.Inv)
    (hrun : t.run threshold es = some t') (horder : t.InOrder threshold es) : t'.Inv := by
  induction es generalizing t with
  | nil =>
    rw [Trace.run, Option.some.injEq] at hrun
    rw [← hrun]
    exact h
  | cons e es ih =>
    rw [Trace.run, Option.bind_eq_some_iff] at hrun
    obtain ⟨u, hstep, hrun⟩ := hrun
    exact ih (h.step hstep horder.1 horder.2.1) hrun (horder.2.2 u hstep)

theorem candidate_eq_some {s : Confluence} {k : Key} {i : Nat} {c : Candidate}
    (hc : s.candidate k i = some c) :
    (s.slots i).tries.Holds k ∧
      c = ⟨(s.slots i).txnId, (lookup (s.slots i).tries.data k).getD default,
        (s.slots i).tries.isDeleted k⟩ := by
  simp only [candidate, Option.ite_none_right_eq_some, Option.some.injEq] at hc
  refine ⟨?_, hc.2.symm⟩
  simpa [Tries.Holds] using hc.1

theorem candidate_of_holds {s : Confluence} {k : Key} {i : Nat} (h : (s.slots i).tries.Holds k) :
    s.candidate k i = some ⟨(s.slots i).txnId, (lookup (s.slots i).tries.data k).getD default,
      (s.slots i).tries.isDeleted k⟩ := by
  rw [candidate, if_pos]
  simpa [Tries.Holds] using h

theorem exists_last {p : Nat → Prop} {l : List Nat} (h : ∃ i ∈ l, p i) :
    ∃ l' i r, l = l' ++ i :: r ∧ p i ∧ ∀ j ∈ r, ¬ p j := by
  induction l with
  | nil => simp at h
  | cons x l ih =>
    by_cases hl : ∃ i ∈ l, p i
    . obtain ⟨l', i, r, rfl, hi, hr⟩ := ih hl
      exact ⟨x :: l', i, r, rfl, hi, hr⟩
    . simp only [List.mem_cons, exists_eq_or_imp, hl, or_false] at h
      exact ⟨[], x, l, rfl, h, fun j hj hp => hl ⟨j, hj, hp⟩⟩

theorem unmerged_of_readable {state : SlotState} (h : state.readable = true) : Unmerged state := by
  cases state <;> simp_all [SlotState.readable, Unmerged]

section Find

variable {t : Trace} (h : t.Inv) {own : Option Nat} {k : Key}

include h

theorem Inv.mem_of_source {i : Nat} (hi : i ∈ t.db.sources own) : i ∈ t.unmerged := by
  simp only [sources, List.mem_filter, Bool.and_eq_true] at hi
  rw [h.mem]
  exact unmerged_of_readable hi.2.1

theorem Inv.source_of_holds {i : Nat} (hi : i ∈ t.unmerged) (hk : (t.db.slots i).tries.Holds k)
    (hown : own ≠ some i) : i ∈ t.db.sources own := by
  rw [h.mem] at hi
  simp only [sources, List.mem_filter, List.mem_range, Bool.and_eq_true, bne_iff_ne, ne_eq]
  refine ⟨?_, ?_, hown⟩
  . by_contra hlt
    rw [h.beyond i (by omega)] at hi
    exact absurd hi (by decide)
  . rcases hi with hi | hi | hi | hi
    . rw [h.unwritten i (Or.inr hi)] at hk
      simp [Tries.Holds, Tries.found, Tries.isDeleted, Tries.empty] at hk
    all_goals
      rw [hi]
      rfl

/-- The candidates, with the one of the newest source behind those that are not later. -/
theorem Inv.latest_candidate {l r : List Nat} {i : Nat} (hl : t.unmerged = l ++ i :: r)
    (hi : (t.db.slots i).tries.Holds k) (hr : ∀ j ∈ r, ¬ (t.db.slots j).tries.Holds k)
    (hfind : t.FindInOrder own k) :
    StableSort.latest Candidate.txnId
        ((t.db.mainCandidate k).toList ++ (t.db.sources own).filterMap (t.db.candidate k)) =
      t.db.candidate k i := by
  obtain ⟨hown, hmain, hold⟩ := hfind l i r hl hi hr
  have hsource := h.source_of_holds (by rw [hl]; simp) hi hown
  obtain ⟨s₁, s₂, hs⟩ := List.append_of_mem hsource
  have hlt : (s₁ ++ i :: s₂).Pairwise (· < ·) := by
    rw [← hs]
    exact List.pairwise_lt_range.filter _
  have hother : ∀ j ∈ s₁ ++ i :: s₂, j ≠ i → ∀ c, t.db.candidate k j = some c →
      c.txnId < (t.db.slots i).txnId ∨ (c.txnId = (t.db.slots i).txnId ∧ j < i) := by
    intro j hj hji c hc
    rw [← hs] at hj
    obtain ⟨hholds, rfl⟩ := candidate_eq_some hc
    have hjown : own ≠ some j := by
      simp only [sources, List.mem_filter, Bool.and_eq_true, bne_iff_ne] at hj
      exact hj.2.2
    have hmem := h.mem_of_source hj
    rw [hl, List.mem_append, List.mem_cons] at hmem
    rcases hmem with hmem | hmem | hmem
    . exact hold j hmem hjown hholds
    . exact absurd hmem hji
    . exact absurd hholds (hr j hmem)
  rw [List.pairwise_append, List.pairwise_cons] at hlt
  rw [hs, List.filterMap_append, List.filterMap_cons, candidate_of_holds hi, ← List.append_assoc]
  refine StableSort.latest_split _ ?_ ?_
  . intro c hc
    rw [List.mem_append, List.mem_filterMap] at hc
    rcases hc with hc | ⟨j, hj, hc⟩
    . simp only [mainCandidate, Option.mem_toList, Option.map_eq_some_iff] at hc
      obtain ⟨v, hv, rfl⟩ := hc
      exact hmain (by rw [hv]; rfl)
    . have hji : j < i := hlt.2.2 j hj i (by simp)
      have := hother j (by simp [hj]) hji.ne c hc
      simp only
      omega
  . intro c hc
    rw [List.mem_filterMap] at hc
    obtain ⟨j, hj, hc⟩ := hc
    have hij : i < j := hlt.2.1.1 j hj
    have := hother j (by simp [hj]) hij.ne' c hc
    simp only
    omega

theorem Inv.find (hfind : t.FindInOrder own k) : t.db.find own k = t.committed k := by
  rw [← h.committed k, Confluence.find, Candidate.resolve_default]
  by_cases hex : ∃ i ∈ t.unmerged, (t.db.slots i).tries.Holds k
  . obtain ⟨l, i, r, hl, hi, hr⟩ : ∃ l i r, t.unmerged = l ++ i :: r ∧
        (t.db.slots i).tries.Holds k ∧ ∀ j ∈ r, ¬ (t.db.slots j).tries.Holds k :=
      exists_last hex
    rw [h.latest_candidate hl hi hr hfind, candidate_of_holds hi, hl, overlay_split hi hr]
    simp only [Option.bind_some]
    split
    next hdel => rw [(h.wf i).disjoint k hdel, Option.map_none]
    next hdel =>
      have hfound : (t.db.slots i).tries.found k = true := hi.resolve_right hdel
      obtain ⟨v, hv⟩ := Option.isSome_iff_exists.mp hfound
      rw [hv]
      rfl
  . have hnone : (t.db.sources own).filterMap (t.db.candidate k) = [] := by
      rw [List.filterMap_eq_nil_iff]
      intro i hi
      cases hc : t.db.candidate k i with
      | none => rfl
      | some c => exact absurd ⟨i, h.mem_of_source hi, (candidate_eq_some hc).1⟩ hex
    rw [hnone, overlay_eq_self fun j hj hk => hex ⟨j, hj, hk⟩, List.append_nil, mainCandidate]
    cases lookup t.db.main k <;> rfl

end Find

end Trace
end Leaves
