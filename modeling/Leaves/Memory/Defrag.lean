import Leaves.Memory.Disjointness

/-!
`defrag` merges free chunks that follow each other. It takes the bytes behind a free chunk for the
header of the next one, which is right unless they name a free chunk that is somewhere else.
-/

namespace Leaves

open OrdMap

namespace BigMemory

section Conditions

variable (startTxnId : Nat)

/-- The headers the inner loop finds in the trie are those of the chunks they stand in. -/
def MergesRight (memory : Nat → FreeKey) (position : Nat) : Nat → Merging → Prop
  | 0, _ => True
  | fuel + 1, m =>
    m.hasSuccessor = true →
      ∀ txnId ∈ lookup m.root (memory (position + m.totalSize)), txnId < startTxnId →
        (memory (position + m.totalSize)).position = position + m.totalSize ∧
          MergesRight memory position fuel
            ⟨erase m.root (memory (position + m.totalSize)),
              m.totalSize + (memory (position + m.totalSize)).size,
              (memory (position + m.totalSize)).hasSuccessor, true⟩

instance decidableMergesRight (memory : Nat → FreeKey) (position : Nat) :
    (fuel : Nat) → (m : Merging) → Decidable (MergesRight startTxnId memory position fuel m)
  | 0, _ => inferInstanceAs (Decidable True)
  | fuel + 1, m =>
    have := decidableMergesRight memory position fuel
    inferInstanceAs (Decidable (m.hasSuccessor = true → ∀ txnId ∈ lookup m.root _,
      txnId < startTxnId → _ ∧ MergesRight startTxnId memory position fuel _))

/-- The inner loop is right in every round of the outer loop. -/
def DefragsRight : Nat → (Nat → FreeKey) → List (FreeKey × Nat) → Option FreeKey → Prop
  | _, _, _, none => True
  | 0, _, _, some _ => True
  | fuel + 1, memory, root, some key =>
    ∀ txnId ∈ lookup root key,
      if txnId < startTxnId then
        MergesRight startTxnId memory key.position root.length
            ⟨root, key.size, key.hasSuccessor, false⟩ ∧
          let m := mergeSuccessors startTxnId memory key.position root.length
            ⟨root, key.size, key.hasSuccessor, false⟩
          if m.foundMergeable then
            let merged := FreeKey.pack m.totalSize key.position m.hasSuccessor
            let root := insert (erase m.root key) merged txnId
            DefragsRight fuel (Function.update memory key.position merged) root (first root)
          else DefragsRight fuel memory root (next root key)
      else DefragsRight fuel memory root (next root key)

instance decidableDefragsRight : (fuel : Nat) → (memory : Nat → FreeKey) →
    (root : List (FreeKey × Nat)) → (key : Option FreeKey) →
    Decidable (DefragsRight startTxnId fuel memory root key)
  | 0, _, _, none => inferInstanceAs (Decidable True)
  | _ + 1, _, _, none => inferInstanceAs (Decidable True)
  | 0, _, _, some _ => inferInstanceAs (Decidable True)
  | fuel + 1, memory, root, some key =>
    have := decidableDefragsRight fuel
    inferInstanceAs (Decidable (∀ txnId ∈ lookup root key,
      if txnId < startTxnId then
        MergesRight startTxnId memory key.position root.length
            ⟨root, key.size, key.hasSuccessor, false⟩ ∧
          let m := mergeSuccessors startTxnId memory key.position root.length
            ⟨root, key.size, key.hasSuccessor, false⟩
          if m.foundMergeable then
            let merged := FreeKey.pack m.totalSize key.position m.hasSuccessor
            let root := insert (erase m.root key) merged txnId
            DefragsRight startTxnId fuel (Function.update memory key.position merged) root
              (first root)
          else DefragsRight startTxnId fuel memory root (next root key)
      else DefragsRight startTxnId fuel memory root (next root key)))

end Conditions

variable {areas : List Area} {memory : Nat → FreeKey} {values : List BigValue} {startTxnId : Nat}
  {key : FreeKey} {txnId : Nat}

/-- The chunk that is merged and the free chunks that are left tile the areas. -/
structure Merges (areas : List Area) (memory : Nat → FreeKey) (values : List BigValue)
    (key : FreeKey) (txnId : Nat) (m : Merging) : Prop where
  ascending : Ascending m.root
  current : lookup m.root key = some txnId
  laid : Laid areas memory values (erase m.root key)
    [⟨key.position, m.totalSize, m.hasSuccessor⟩]

theorem mergeSuccessors_spec {fuel : Nat} {m : Merging} (h : Merges areas memory values key txnId m)
    (hright : MergesRight startTxnId memory key.position fuel m) :
    Merges areas memory values key txnId
        (mergeSuccessors startTxnId memory key.position fuel m) ∧
      (mergeSuccessors startTxnId memory key.position fuel m).root.length ≤ m.root.length ∧
      ((mergeSuccessors startTxnId memory key.position fuel m).foundMergeable = true →
        m.foundMergeable = true ∨
        (mergeSuccessors startTxnId memory key.position fuel m).root.length < m.root.length) ∧
      ((mergeSuccessors startTxnId memory key.position fuel m).foundMergeable = false →
        mergeSuccessors startTxnId memory key.position fuel m = m) := by
  induction fuel generalizing m with
  | zero => exact ⟨h, Nat.le_refl _, Or.inl, fun _ => rfl⟩
  | succ fuel ih =>
    unfold mergeSuccessors
    simp only
    split
    next hsuccessor =>
      split
      next => exact ⟨h, Nat.le_refl _, Or.inl, fun _ => rfl⟩
      next t ht =>
        split
        next hlt =>
          obtain ⟨hposition, hrest⟩ := hright hsuccessor t ht hlt
          generalize memory (key.position + m.totalSize) = nextKey at ht hposition hrest ⊢
          have hsize : 0 < m.totalSize := (h.laid.placed_of_mem List.mem_cons_self).1
          have hne : nextKey ≠ key := by
            rintro rfl
            omega
          have hnext : lookup (erase m.root key) nextKey = some t := by
            rw [lookup_erase, if_neg hne]
            exact ht
          have htaken := h.laid.take hnext
          rw [erase_comm h.ascending] at htaken
          have hswap := htaken.perm (List.Perm.swap _ _ _)
          rw [FreeKey.chunk, hposition, hsuccessor] at hswap
          have hmerged := hswap.merge
          have hcurrent : lookup (erase m.root nextKey) key = some txnId := by
            rw [lookup_erase, if_neg hne.symm]
            exact h.current
          have hlength := length_erase h.ascending ht
          obtain ⟨hm, hle, -, hnot⟩ :=
            ih ⟨ascending_erase h.ascending, hcurrent, hmerged⟩ hrest
          have hlt' : (mergeSuccessors startTxnId memory key.position fuel
              ⟨erase m.root nextKey, m.totalSize + nextKey.size, nextKey.hasSuccessor,
                true⟩).root.length < m.root.length := by
            simp only at hle
            omega
          refine ⟨hm, hlt'.le, fun _ => Or.inr hlt', ?_⟩
          intro hfalse
          have := hnot hfalse
          rw [this] at hfalse
          simp at hfalse
        next => exact ⟨h, Nat.le_refl _, Or.inl, fun _ => rfl⟩
    next => exact ⟨h, Nat.le_refl _, Or.inl, fun _ => rfl⟩

theorem merges_start {root : List (FreeKey × Nat)} (h : Laid areas memory values root [])
    (hkey : lookup root key = some txnId) :
    Merges areas memory values key txnId ⟨root, key.size, key.hasSuccessor, false⟩ :=
  ⟨h.ascending, hkey, h.take hkey⟩

/-- The merged chunk goes back into the trie, with a new header. -/
theorem Merges.finish {m : Merging} (h : Merges areas memory values key txnId m) :
    Laid areas
      (Function.update memory key.position (FreeKey.pack m.totalSize key.position m.hasSuccessor))
      values (insert (erase m.root key) (FreeKey.pack m.totalSize key.position m.hasSuccessor) txnId)
      [] :=
  (h.laid.setHeader _).put txnId

/-- The chunks tile the areas in every round, and the rounds come to an end. -/
theorem defragLoop_spec {fuel : Nat} {root : List (FreeKey × Nat)} {pos : Option FreeKey}
    (h : Laid areas memory values root []) (hpos : ∀ k ∈ pos, Has root k)
    (hfuel : root.length * root.length + ahead (· < ·) root pos ≤ fuel)
    (hright : DefragsRight startTxnId fuel memory root pos) :
    ∃ memory' root', defragLoop startTxnId fuel memory root pos = some (memory', root') ∧
      Laid areas memory' values root' [] := by
  induction fuel generalizing memory root pos with
  | zero =>
    match pos with
    | none => exact ⟨memory, root, rfl, h⟩
    | some k =>
      have := ahead_pos (r := (· < ·)) (hpos k rfl)
      omega
  | succ fuel ih =>
    match pos with
    | none => exact ⟨memory, root, rfl, h⟩
    | some k =>
      have hk := hpos k rfl
      have hahead := ahead_pos (r := (· < ·)) hk
      obtain ⟨t, ht⟩ := Option.isSome_iff_exists.mp hk
      have hright := hright t ht
      -- going on with the next chunk
      have hgo : DefragsRight startTxnId fuel memory root (next root k) →
          ∃ memory' root', defragLoop startTxnId fuel memory root (next root k) =
            some (memory', root') ∧ Laid areas memory' values root' [] := by
        intro hgoes
        refine ih h ?_ ?_ hgoes
        . intro k' hk'
          have hnear := steps_next root h.ascending k
          rw [hk'] at hnear
          exact hnear.1.1
        . have := ahead_move_lt steps_next h.ascending hk
          omega
      unfold defragLoop
      rw [ht]
      simp only
      split
      next hlt =>
        rw [if_pos hlt] at hright
        obtain ⟨hmerges, hrest⟩ := hright
        obtain ⟨hm, -, hfound, -⟩ := mergeSuccessors_spec (merges_start h ht) hmerges
        simp only at hrest
        split
        next hmergeable =>
          rw [if_pos hmergeable] at hrest
          rw [if_pos (by rw [hm.current]; rfl)]
          have hlength := (hfound hmergeable).resolve_left (by simp)
          simp only at hlength
          refine ih hm.finish ?_ ?_ hrest
          . intro k' hk'
            have hnear := nearest_first hm.finish.ascending
            rw [hk'] at hnear
            exact hnear.1
          . generalize hroot : insert (erase _ k) _ t = root'
            have herase := length_erase hm.ascending hm.current
            have hinsert := congrArg List.length hroot
            have hle : root'.length + 1 ≤ root.length := by
              rw [← hinsert]
              refine (Nat.add_le_add_right (length_insert_le _ _ _) 1).trans ?_
              omega
            have hfirst := ahead_le (r := (· < ·)) root' (first root')
            have hmul := Nat.mul_le_mul (Nat.le_of_succ_le hle) hle
            rw [Nat.mul_succ] at hmul
            omega
        next hnot =>
          rw [if_neg hnot] at hrest
          exact hgo hrest
      next hnot =>
        rw [if_neg hnot] at hright
        exact hgo hright

end BigMemory
end Leaves
