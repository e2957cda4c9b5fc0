import Leaves.Multi.SlotInvariant

/-!
Every step of a thread keeps the invariant of the slots.
-/

namespace Leaves

open Function

namespace SlotTable

variable {n : Nat}

section Steps

variable {s : SlotTable n} (h : s.Inv) {c : Option (Fin n)} {i : Nat}

include h

theorem Inv.pins_le (c : Option (Fin n)) (i : Nat) : (s.users c).pins i ≤ (s.slots i).refs := by
  rw [h.refs i]
  exact Finset.single_le_sum (f := fun c => (s.users c).pins i) (fun _ _ => Nat.zero_le _)
    (Finset.mem_univ c)

theorem Inv.txnPins_le (c : Option (Fin n)) (i : Nat) :
    (s.users c).txnPins i ≤ (s.slots i).txnRefs := by
  rw [h.txnRefs i]
  exact Finset.single_le_sum (f := fun c => (s.users c).txnPins i) (fun _ _ => Nat.zero_le _)
    (Finset.mem_univ c)

theorem Inv.refs_pos (hpin : 0 < (s.users c).pins i) : 0 < (s.slots i).refs := by
  have := h.pins_le c i
  omega

theorem Inv.pinned (hws : (s.users c).writeSource = some i) : 0 < (s.slots i).refs := by
  apply h.refs_pos (c := c)
  rw [SlotUser.pins, if_pos hws]
  omega

theorem Inv.lt_of_refs (hrefs : 0 < (s.slots i).refs) : i < s.count := by
  by_contra hi
  rw [h.beyond i (by omega)] at hrefs
  exact absurd hrefs (by decide)

theorem Inv.lt_of_state (hstate : (s.slots i).state ≠ .empty) : i < s.count := by
  by_contra hi
  rw [h.beyond i (by omega)] at hstate
  exact absurd rfl hstate

/-- No other thread relies on a slot that is pinned and not being merged. -/
theorem Inv.others (hrefs : 0 < (s.slots i).refs)
    (hunique : ∀ d, d ≠ c → ¬ (s.users d).Owns i) {t : Slot}
    (hmerging : (s.slots i).state = .merging →
      t.state = .merging ∧ ((s.slots i).inMain = true → t.inMain = true))
    (hmerged : t.state = .merged → (s.slots i).state = .merged) :
    ∀ d, d ≠ c → (s.users d).Requires i t := by
  intro d hd
  have hreq := h.requires d i
  have hno := hunique d hd
  refine ⟨?_, ?_, ?_, ?_, ?_, ?_⟩
  . exact fun hs => absurd (Or.inl hs) hno
  . exact fun hs => absurd (Or.inr hs) hno
  . intro hrec
    have := (hreq.recycled hrec).2
    omega
  . exact fun hm => (hmerging (hreq.merged hm)).1
  . intro ha
    have hm := hreq.merged (by rw [ha]; rfl)
    exact (hmerging hm).2 (hreq.applied ha)
  . exact fun hf hm => hreq.failedUnpin hf (hmerged hm)

/-- A step of the thread with its write source. -/
theorem Inv.store {u : SlotUser} {t : Slot} (hws : (s.users c).writeSource = some i)
    (hpc : (s.users c).pc.slot = none) (huws : u.writeSource = some i) (hupc : u.pc.slot = none)
    (hs : u.sources = (s.users c).sources) (hwf : u.Wf) (hrefs : t.refs = (s.slots i).refs)
    (htxn : t.txnRefs + (s.users c).writeCursor.toNat =
      (s.slots i).txnRefs + u.writeCursor.toNat)
    (hexp : u.Expects t.state)
    (hmerging : (s.slots i).state = .merging →
      t.state = .merging ∧ ((s.slots i).inMain = true → t.inMain = true))
    (hmain : t.state.readable = false → t.inMain = true)
    (hmerges : t.merges = t.recycles + if t.state = .merged then 1 else 0)
    (hmerged : t.state = .merged → (s.slots i).state = .merged) :
    s.Moves c u i t := by
  have hpos := h.pinned hws
  have hunique : ∀ d, d ≠ c → ¬ (s.users d).Owns i :=
    fun d hd ho => hd (h.unique d c i ho (Or.inl hws))
  have hold : (s.users c).pc.Away i := Pc.away (by simp [hpc])
  have hnew : u.pc.Away i := Pc.away (by simp [hupc])
  refine ⟨Or.inl (h.lt_of_refs hpos), ?_, hwf, ?_, ?_, ?_, h.others hpos hunique hmerging hmerged,
    fun _ => hunique, fun _ => Or.inl (Or.inl huws), hmain, hmerges, ?_, ?_, ?_, ?_⟩
  . refine SlotUser.elsewhere_write ?_ ?_ (by simp [hpc]) (by simp [hupc]) hs
    . intro j hj
      simp [hws, hj.symm]
    . intro j hj
      simp [huws, hj.symm]
  . simp [SlotUser.pins, hws, huws, hs, hrefs, hold.pin, hnew.pin]
  . simp only [SlotUser.txnPins, hws, huws, hs, hold.txnPin, hnew.txnPin, true_and, ↓reduceIte]
    cases hu : u.writeCursor <;> cases hv : (s.users c).writeCursor <;>
      simp [hu, hv] at htxn ⊢ <;> omega
  . exact ⟨fun _ => hexp, by simp [hnew.claim], by simp [hnew.recycled], by simp [hnew.merged],
      by simp [hnew.applied], by simp [hnew.failedUnpin]⟩
  . intro _ hzero
    omega
  . simp [hnew.recycled]
  . simp [hnew.last]
  . intro hm
    cases hu : u.pc <;> simp [hu, Pc.slot, Pc.mergeTask] at hupc hm

/-- A step of the thread with its write source that leaves the slot as it is. -/
theorem Inv.goto {pc : Pc} (hws : (s.users c).writeSource = some i)
    (hpc : (s.users c).pc.slot = none) (hnew : pc.slot = none)
    (hwf : ({ s.users c with pc } : SlotUser).Wf)
    (hexp : ({ s.users c with pc } : SlotUser).Expects (s.slots i).state) :
    (s.goto c pc).Inv := by
  refine h.moves (h.store (u := { s.users c with pc }) (t := s.slots i) hws hpc hws hnew rfl hwf
    rfl rfl hexp (fun hm => ⟨hm, id⟩) (h.inMain i) (h.merges i) id) rfl ?_ rfl rfl
  exact (update_eq_self i s.slots).symm

theorem Inv.writeCursor (hpc : (s.users c).pc = .idle)
    (hws : (s.users c).writeSource = some i) : (s.users c).writeCursor = true := by
  have hwf := h.wf c
  rw [SlotUser.wf_of_other (by rw [hpc]; rfl)] at hwf
  rw [hwf.1, hws]
  rfl

theorem Inv.state_idle (hpc : (s.users c).pc = .idle) (hT : (s.users c).inTransaction = false)
    (hws : (s.users c).writeSource = some i) :
    (s.slots i).state = .attached ∨ (s.slots i).state = .merging ∨ (s.slots i).state = .merged := by
  have hexp := (h.requires c i).source hws
  rw [SlotUser.expects_of_other (by rw [hpc]; rfl), hT] at hexp
  exact hexp

theorem Inv.state_write (hpc : (s.users c).pc = .idle) (hT : (s.users c).inTransaction = true)
    (hws : (s.users c).writeSource = some i) :
    (s.slots i).state = .firstWriting ∨ (s.slots i).state = .writing := by
  have hexp := (h.requires c i).source hws
  rw [SlotUser.expects_of_other (by rw [hpc]; rfl), hT] at hexp
  exact hexp

/-- The cursor parks its write source, or it goes on with what it has seen of its state. -/
theorem Inv.leave {pc : Pc} (hpc : (s.users c).pc = .idle)
    (hT : (s.users c).inTransaction = false) (hws : (s.users c).writeSource = some i)
    (hnew : pc = .sawMerged ∨ pc = .park ∨ pc = .detach)
    (hexp : ({ s.users c with pc } : SlotUser).Expects (s.slots i).state) : (s.goto c pc).Inv := by
  have hwc := h.writeCursor hpc hws
  refine h.goto hws (by rw [hpc]; rfl) ?_ ?_ hexp
  . rcases hnew with rfl | rfl | rfl <;> rfl
  . rcases hnew with rfl | rfl | rfl <;> simp [SlotUser.Wf, hws, hwc, hT]

theorem Inv.startTransaction (hpc : (s.users c).pc = .idle)
    (hT : (s.users c).inTransaction = false) (hws : (s.users c).writeSource = some i)
    (hstate : (s.slots i).state = .attached) :
    ((s.setState i .writing).goto c (.opening false)).Inv := by
  have hwc := h.writeCursor hpc hws
  refine h.moves (h.store (u := { s.users c with pc := .opening false })
    (t := { s.slots i with state := .writing }) hws (by rw [hpc]; rfl) hws rfl rfl
    ?_ rfl rfl rfl ?_ (by simp [SlotState.readable]) ?_ (by simp)) rfl rfl rfl rfl
  . simp [SlotUser.Wf, hws, hwc, hT]
  . simp [hstate]
  . simpa [hstate] using h.merges i

/-- The transaction ends, and the slot gets another state. -/
theorem Inv.endTransaction {pc : Pc} {t : Slot} (hpc : (s.users c).pc = .idle)
    (hT : (s.users c).inTransaction = true) (hws : (s.users c).writeSource = some i)
    (hnew : pc = .park ∧ t.state = .merging ∨ pc = .idle ∧ t.state = .attached)
    (hrefs : t.refs = (s.slots i).refs) (htxn : t.txnRefs = (s.slots i).txnRefs)
    (hmerges : t.merges = (s.slots i).merges) (hrecycles : t.recycles = (s.slots i).recycles) :
    ((s.setSlot i t).setUser c { s.users c with inTransaction := false, pc }).Inv := by
  have hwc := h.writeCursor hpc hws
  have hold := h.state_write hpc hT hws
  have hmerging : (s.slots i).state ≠ .merging := by
    rcases hold with hold | hold <;> simp [hold]
  have hmerged : (s.slots i).state ≠ .merged := by
    rcases hold with hold | hold <;> simp [hold]
  have hold' := h.merges i
  rw [if_neg hmerged] at hold'
  refine h.moves (h.store (u := { s.users c with inTransaction := false, pc }) (t := t) hws
    (by rw [hpc]; rfl) hws ?_ rfl ?_ hrefs (by rw [htxn]) ?_ (fun hm => absurd hm hmerging) ?_ ?_
    ?_) rfl rfl rfl rfl
  all_goals rcases hnew with ⟨rfl, hst⟩ | ⟨rfl, hst⟩
  . rfl
  . rfl
  . simp [SlotUser.Wf, hws, hwc]
  . simp [SlotUser.Wf, hws, hwc]
  . exact Or.inl hst
  . exact Or.inl hst
  . simp [hst, SlotState.readable]
  . simp [hst, SlotState.readable]
  . simpa [hst, hmerges, hrecycles] using hold'
  . simpa [hst, hmerges, hrecycles] using hold'
  . simp [hst]
  . simp [hst]

theorem Inv.resume_opened {first : Bool} (hpc : (s.users c).pc = .opening first)
    (hws : (s.users c).writeSource = some i) :
    (s.setUser c { s.users c with inTransaction := true, pc := .idle }).Inv := by
  have hwf := h.wf c
  simp only [SlotUser.Wf, hpc] at hwf
  have hexp := (h.requires c i).source hws
  refine h.moves (h.store (u := { s.users c with inTransaction := true, pc := .idle })
    (t := s.slots i) hws (by rw [hpc]; rfl) hws rfl rfl ?_ rfl rfl ?_ (fun hm => ⟨hm, id⟩)
    (h.inMain i) (h.merges i) id) rfl (update_eq_self i s.slots).symm rfl rfl
  . simp [SlotUser.Wf, hwf]
  . cases first <;> simp_all [SlotUser.Expects]

theorem Inv.resume_failed_first (hpc : (s.users c).pc = .opening true)
    (hws : (s.users c).writeSource = some i) : ((s.setState i .merging).goto c .park).Inv := by
  have hwf := h.wf c
  simp only [SlotUser.Wf, hpc] at hwf
  have hexp := (h.requires c i).source hws
  simp only [SlotUser.Expects, hpc] at hexp
  refine h.moves (h.store (u := { s.users c with pc := .park })
    (t := { s.slots i with state := .merging }) hws (by rw [hpc]; rfl) hws rfl rfl hwf rfl rfl
    (Or.inl rfl) (by simp [hexp]) (by simp [SlotState.readable]) ?_ (by simp)) rfl rfl rfl rfl
  simpa [hexp] using h.merges i

theorem Inv.resume_failed_later (hpc : (s.users c).pc = .opening false)
    (hws : (s.users c).writeSource = some i) : ((s.setState i .attached).goto c .idle).Inv := by
  have hwf := h.wf c
  simp only [SlotUser.Wf, hpc] at hwf
  have hexp := (h.requires c i).source hws
  simp only [SlotUser.Expects, hpc] at hexp
  refine h.moves (h.store (u := { s.users c with pc := .idle })
    (t := { s.slots i with state := .attached }) hws (by rw [hpc]; rfl) hws rfl rfl ?_ rfl rfl
    ?_ (by simp [hexp]) (by simp [SlotState.readable]) ?_ (by simp)) rfl rfl rfl rfl
  . simp [SlotUser.Wf, hwf]
  . simp [SlotUser.Expects, hwf]
  . simpa [hexp] using h.merges i

end Steps

section Steps

variable {s : SlotTable n} (h : s.Inv) {c : Option (Fin n)} {i : Nat}

include h

theorem Inv.resume_sawMerged (hpc : (s.users c).pc = .sawMerged)
    (hws : (s.users c).writeSource = some i) :
    ((s.setSlot i { s.slots i with
      state := .firstWriting, recycles := (s.slots i).recycles + 1 }).goto c .reclaim).Inv := by
  have hwf := h.wf c
  simp only [SlotUser.Wf, hpc] at hwf
  have hexp := (h.requires c i).source hws
  simp only [SlotUser.Expects, hpc] at hexp
  refine h.moves (h.store (u := { s.users c with pc := .reclaim })
    (t := { s.slots i with state := .firstWriting, recycles := (s.slots i).recycles + 1 }) hws
    (by rw [hpc]; rfl) hws rfl rfl hwf rfl rfl rfl (by simp [hexp]) ?_ ?_ (by simp)) rfl rfl rfl rfl
  . exact fun _ => h.inMain i (by rw [hexp]; rfl)
  . simpa [hexp] using h.merges i

theorem Inv.resume_reinit (hpc : (s.users c).pc = .reinit)
    (hws : (s.users c).writeSource = some i) :
    ((s.setTxnRefs i ((s.slots i).txnRefs + 1)).setUser c
      { s.users c with writeCursor := true, pc := .opening true }).Inv := by
  have hwf := h.wf c
  simp only [SlotUser.Wf, hpc] at hwf
  have hexp := (h.requires c i).source hws
  simp only [SlotUser.Expects, hpc] at hexp
  refine h.moves (h.store
    (u := { s.users c with writeCursor := true, pc := .opening true })
    (t := { s.slots i with txnRefs := (s.slots i).txnRefs + 1 }) hws
    (by rw [hpc]; rfl) hws rfl rfl ?_ rfl ?_ hexp (fun hm => ⟨hm, id⟩) (h.inMain i) (h.merges i)
    id) rfl rfl rfl rfl
  . simp [SlotUser.Wf, hwf]
  . simp [hwf]

theorem Inv.resume_reclaim (hpc : (s.users c).pc = .reclaim)
    (hws : (s.users c).writeSource = some i) :
    ((s.setTxnRefs i ((s.slots i).txnRefs - 1)).setUser c
      { s.users c with writeCursor := false, pc := .reset }).Inv := by
  have hwf := h.wf c
  simp only [SlotUser.Wf, hpc] at hwf
  have hexp := (h.requires c i).source hws
  simp only [SlotUser.Expects, hpc] at hexp
  have htxn := h.txnPins_le c i
  simp only [SlotUser.txnPins, hws, hwf, and_self, ↓reduceIte] at htxn
  refine h.moves (h.store
    (u := { s.users c with writeCursor := false, pc := .reset })
    (t := { s.slots i with txnRefs := (s.slots i).txnRefs - 1 }) hws
    (by rw [hpc]; rfl) hws rfl rfl ?_ rfl ?_ hexp (fun hm => ⟨hm, id⟩) (h.inMain i) (h.merges i)
    id) rfl rfl rfl rfl
  . simp [SlotUser.Wf, hwf]
  . simp [hwf]
    omega

/-- The reset behind `merged` finds no transaction if the pin of the owner is the only one. -/
theorem Inv.txnRefs_reset (hpc : (s.users c).pc = .reset)
    (hws : (s.users c).writeSource = some i) (hrefs : (s.slots i).refs = 1) :
    (s.slots i).txnRefs = 0 := by
  have hwf := h.wf c
  simp only [SlotUser.Wf, hpc] at hwf
  have hpins := h.refs i
  rw [← Finset.add_sum_erase _ _ (Finset.mem_univ c)] at hpins
  have htxn := h.txnRefs i
  rw [← Finset.add_sum_erase _ _ (Finset.mem_univ c)] at htxn
  have hle : ∑ d ∈ Finset.univ.erase c, (s.users d).txnPins i ≤
      ∑ d ∈ Finset.univ.erase c, (s.users d).pins i :=
    Finset.sum_le_sum fun d _ => (s.users d).txnPins_le i
  have h1 : (s.users c).pins i = 1 + (s.users c).sources.count i := by
    simp [SlotUser.pins, hws, hpc, Pc.pin]
  have h2 : (s.users c).txnPins i = (s.users c).sources.count i := by
    simp [SlotUser.txnPins, hwf, hpc, Pc.txnPin]
  omega

theorem Inv.resume_reset (hpc : (s.users c).pc = .reset)
    (hws : (s.users c).writeSource = some i) (hrefs : (s.slots i).refs = 1) :
    ((s.setSlot i { s.slots i with inMain := true }).goto c .reinit).Inv := by
  have hzero := h.txnRefs_reset hpc hws hrefs
  have hwf := h.wf c
  simp only [SlotUser.Wf, hpc] at hwf
  have hexp := (h.requires c i).source hws
  simp only [SlotUser.Expects, hpc] at hexp
  exact h.moves (h.store (u := { s.users c with pc := .reinit })
    (t := { s.slots i with inMain := true }) hws (by rw [hpc]; rfl) hws rfl rfl hwf
    rfl rfl hexp
    (fun hm => ⟨hm, fun _ => rfl⟩) (fun _ => rfl) (h.merges i) id) rfl rfl rfl rfl

theorem Inv.resume_detach (hpc : (s.users c).pc = .detach)
    (hws : (s.users c).writeSource = some i) (hmerged : (s.slots i).state ≠ .merged) :
    ((s.setState i .merging).goto c .park).Inv := by
  have hwf := h.wf c
  simp only [SlotUser.Wf, hpc] at hwf
  have hmerges := h.merges i
  rw [if_neg hmerged] at hmerges
  exact h.moves (h.store (u := { s.users c with pc := .park })
    (t := { s.slots i with state := .merging }) hws (by rw [hpc]; rfl) hws rfl rfl hwf rfl rfl
    (Or.inl rfl) (fun _ => ⟨rfl, id⟩) (by simp [SlotState.readable]) hmerges (by simp)) rfl rfl rfl
    rfl

/-- A step that is not about the write source and leaves the state of the slot. -/
theorem Inv.keep {u : SlotUser} {t : Slot} (hpc : (s.users c).pc.other = true)
    (hupc : u.pc.other = true) (hu : u = { s.users c with pc := u.pc, sources := u.sources })
    (hold : ∀ j, j ≠ i → (s.users c).pc.slot ≠ some j) (hnew : ∀ j, j ≠ i → u.pc.slot ≠ some j)
    (hcount : ∀ j, j ≠ i → u.sources.count j = (s.users c).sources.count j) (hlt : i < s.count ∨ t = s.slots i)
    (hrefs : t.refs + ((s.users c).sources.count i + if (s.users c).pc.pin = some i then 1 else 0) =
      (s.slots i).refs + (u.sources.count i + if u.pc.pin = some i then 1 else 0))
    (htxn : t.txnRefs +
        ((s.users c).sources.count i + if (s.users c).pc.txnPin = some i then 1 else 0) =
      (s.slots i).txnRefs + (u.sources.count i + if u.pc.txnPin = some i then 1 else 0))
    (hstate : t.state = (s.slots i).state)
    (hmain : (s.slots i).inMain = true → t.inMain = true)
    (hmerges : t.merges = (s.slots i).merges) (hrecycles : t.recycles = (s.slots i).recycles)
    (hzero : (s.slots i).state = .merged → (s.slots i).refs = 0 → t.refs = 0)
    (hlast : t.state = .merged → t.refs = 0 →
      u.pc.last = some i ∨ ((s.slots i).refs = 0 ∧ (s.users c).pc.last ≠ some i))
    (hrecycled : u.pc.last = some i → ∀ d, d ≠ c → (s.users d).pc.recycled ≠ some i)
    (hrec : u.pc.recycled = some i → t.state = .merged ∧ t.refs = 0)
    (hrecycler : u.pc.recycled = some i → ∀ d, d ≠ c → (s.users d).pc.last ≠ some i)
    (hmer : u.pc.merged = some i → t.state = .merging)
    (htask : u.pc.mergeTask = true → c = none)
    (happ : u.pc = .applied i → t.inMain = true)
    (hfail : u.pc = .failedUnpin i → t.state ≠ .merged) :
    s.Moves c u i t := by
  have hws : u.writeSource = (s.users c).writeSource := by rw [hu]
  have hwc : u.writeCursor = (s.users c).writeCursor := by rw [hu]
  have hT : u.inTransaction = (s.users c).inTransaction := by rw [hu]
  have hclaim : ∀ v : SlotUser, v.pc.other = true → v.pc ≠ .claim i := by
    intro v hv hc
    simp [hc, Pc.other] at hv
  have howns : u.Owns i ↔ (s.users c).Owns i := by
    simp [SlotUser.Owns, hws, hclaim _ hpc, hclaim _ hupc]
  refine ⟨hlt, SlotUser.elsewhere_other hpc hupc hws hwc hT hold hnew hcount, ?_, ?_, ?_,
    ⟨?_, fun hc => absurd hc (hclaim u hupc), hrec, hmer, happ, hfail⟩, ?_, ?_, ?_, ?_, ?_, ?_,
    hrecycler, hrecycled, htask⟩
  . rw [SlotUser.wf_of_other hupc, hws, hwc, hT, ← SlotUser.wf_of_other hpc]
    exact h.wf c
  . simp only [SlotUser.pins, hws]
    omega
  . simp only [SlotUser.txnPins, hws, hwc]
    omega
  . rw [hws, SlotUser.expects_of_other hupc, hT, hstate, ← SlotUser.expects_of_other hpc]
    exact (h.requires c i).source
  . intro d _
    have hreq := h.requires d i
    refine ⟨?_, ?_, ?_, ?_, ?_, ?_⟩
    . rw [hstate]
      exact hreq.source
    . rw [hstate]
      exact hreq.claim
    . intro hd
      obtain ⟨hm, hz⟩ := hreq.recycled hd
      exact ⟨hstate.trans hm, hzero hm hz⟩
    . rw [hstate]
      exact hreq.merged
    . exact fun hd => hmain (hreq.applied hd)
    . rw [hstate]
      exact hreq.failedUnpin
  . intro ho d hd ho'
    exact hd (h.unique d c i ho' (howns.mp ho))
  . intro ho
    rw [hstate] at ho
    obtain ⟨d, hd⟩ := h.owned i ho
    by_cases hdc : d = c
    . rw [hdc, ← howns] at hd
      exact Or.inl hd
    . exact Or.inr ⟨d, hdc, hd⟩
  . intro hread
    rw [hstate] at hread
    exact hmain (h.inMain i hread)
  . rw [hmerges, hrecycles, hstate]
    exact h.merges i
  . intro hm hz
    rcases hlast hm hz with hl | ⟨hz', hl⟩
    . exact Or.inl hl
    . rw [hstate] at hm
      obtain ⟨d, hd⟩ := h.last i hm hz'
      refine Or.inr ⟨d, ?_, hd⟩
      rintro rfl
      exact hl hd

/-- The same for the steps that neither merge nor recycle. -/
theorem Inv.keep_quiet {u : SlotUser} {t : Slot} (hpc : (s.users c).pc.other = true)
    (hquiet : u.pc.Quiet) (hu : u = { s.users c with pc := u.pc, sources := u.sources })
    (hold : ∀ j, j ≠ i → (s.users c).pc.slot ≠ some j) (hnew : ∀ j, j ≠ i → u.pc.slot ≠ some j)
    (hcount : ∀ j, j ≠ i → u.sources.count j = (s.users c).sources.count j)
    (hlt : i < s.count ∨ t = s.slots i)
    (hrefs : t.refs + ((s.users c).sources.count i + if (s.users c).pc.pin = some i then 1 else 0) =
      (s.slots i).refs + (u.sources.count i + if u.pc.pin = some i then 1 else 0))
    (htxn : t.txnRefs +
        ((s.users c).sources.count i + if (s.users c).pc.txnPin = some i then 1 else 0) =
      (s.slots i).txnRefs + (u.sources.count i + if u.pc.txnPin = some i then 1 else 0))
    (hstate : t.state = (s.slots i).state) (hmain : t.inMain = (s.slots i).inMain)
    (hmerges : t.merges = (s.slots i).merges) (hrecycles : t.recycles = (s.slots i).recycles)
    (hzero : (s.slots i).state = .merged → (s.slots i).refs = 0 → t.refs = 0)
    (hlast : t.state = .merged → t.refs = 0 →
      (s.slots i).refs = 0 ∧ (s.users c).pc.last ≠ some i) :
    s.Moves c u i t := by
  refine h.keep hpc hquiet.other hu hold hnew hcount hlt hrefs htxn hstate
    (fun hm => hmain.trans hm) hmerges hrecycles hzero (fun hm hz => Or.inr (hlast hm hz))
    (by simp [hquiet.last]) (by simp [hquiet.recycled]) (by simp [hquiet.recycled])
    (by simp [hquiet.merged]) (by simp [hquiet.mergeTask]) ?_ ?_
  all_goals
    intro hp
    have := hquiet.mergeTask
    simp [hp, Pc.mergeTask] at this

theorem Inv.check (hpc : (s.users c).pc = .idle) (i : Nat) : (s.goto c (.checked i)).Inv := by
  refine h.moves (h.keep_quiet (u := { s.users c with pc := .checked i }) (t := s.slots i)
    (by rw [hpc]; rfl) ⟨rfl, rfl, rfl, rfl, rfl⟩ rfl (by simp [hpc, Pc.slot]) ?_ (fun _ _ => rfl) (Or.inr rfl)
    (by simp [hpc, Pc.pin]) (by simp [hpc, Pc.txnPin]) rfl rfl rfl rfl (fun _ hz => hz) ?_) rfl
    (update_eq_self i s.slots).symm rfl rfl
  . intro j hj
    simp [Pc.slot, hj.symm]
  . exact fun _ hz => ⟨hz, by simp [hpc, Pc.last]⟩

theorem Inv.parkSource (hpc : (s.users c).pc = .idle) (hi : i ∈ (s.users c).sources) :
    ((s.setTxnRefs i ((s.slots i).txnRefs - 1)).setUser c
      { s.users c with sources := (s.users c).sources.erase i, pc := .unpin i }).Inv := by
  have hcount : 0 < (s.users c).sources.count i := List.count_pos_iff.mpr hi
  have hpos : 0 < (s.slots i).refs := h.refs_pos (c := c) (by rw [SlotUser.pins]; omega)
  have htxn := h.txnPins_le c i
  rw [SlotUser.txnPins] at htxn
  refine h.moves (h.keep_quiet
    (u := { s.users c with sources := (s.users c).sources.erase i, pc := .unpin i })
    (t := { s.slots i with txnRefs := (s.slots i).txnRefs - 1 }) (by rw [hpc]; rfl) ⟨rfl, rfl, rfl, rfl, rfl⟩ rfl
    (by simp [hpc, Pc.slot]) ?_ ?_ (Or.inl (h.lt_of_refs hpos)) ?_ ?_ rfl rfl rfl rfl
    (fun _ hz => hz) ?_) rfl rfl rfl rfl
  . intro j hj
    simp [Pc.slot, hj.symm]
  . intro j hj
    simp [List.count_erase_of_ne hj]
  . simp [hpc, Pc.pin]
    omega
  . simp [hpc, Pc.txnPin]
    omega
  . intro _ hz
    simp only at hz
    omega

theorem Inv.resume_checked (hpc : (s.users c).pc = .checked i)
    (hread : (s.slots i).state.readable = true) :
    ((s.setRefs i ((s.slots i).refs + 1)).goto c (.source i)).Inv := by
  have hstate : (s.slots i).state ≠ .merged ∧ (s.slots i).state ≠ .empty := by
    constructor <;> (intro hm; simp [hm, SlotState.readable] at hread)
  refine h.moves (h.keep_quiet (u := { s.users c with pc := .source i })
    (t := { s.slots i with refs := (s.slots i).refs + 1 }) (by rw [hpc]; rfl) ⟨rfl, rfl, rfl, rfl, rfl⟩ rfl ?_ ?_
    (fun _ _ => rfl) (Or.inl (h.lt_of_state hstate.2)) (by simp [hpc, Pc.pin]; omega) (by simp [hpc, Pc.txnPin]) rfl rfl rfl rfl
    (fun hm _ => absurd hm hstate.1) (fun hm _ => absurd hm hstate.1)) rfl rfl rfl rfl
  all_goals
    intro j hj
    simp [hpc, Pc.slot, hj.symm]

theorem Inv.resume_source (hpc : (s.users c).pc = .source i) :
    ((s.setTxnRefs i ((s.slots i).txnRefs + 1)).setUser c
      { s.users c with sources := i :: (s.users c).sources, pc := .idle }).Inv := by
  have hpos : 0 < (s.slots i).refs := h.refs_pos (c := c) (by simp [SlotUser.pins, hpc, Pc.pin])
  refine h.moves (h.keep_quiet (u := { s.users c with sources := i :: (s.users c).sources, pc := .idle })
    (t := { s.slots i with txnRefs := (s.slots i).txnRefs + 1 }) (by rw [hpc]; rfl) ⟨rfl, rfl, rfl, rfl, rfl⟩ rfl ?_
    (by simp [Pc.slot]) ?_ (Or.inl (h.lt_of_refs hpos)) (by simp [hpc, Pc.pin])
    (by simp [hpc, Pc.txnPin]; omega) rfl rfl rfl rfl (fun _ hz => hz) ?_) rfl rfl rfl rfl
  . intro j hj
    simp [hpc, Pc.slot, hj.symm]
  . intro j hj
    simp [hj.symm]
  . intro _ hz
    simp only at hz
    omega

theorem Inv.resume_unpin (hpc : (s.users c).pc = .unpin i) :
    ((s.setRefs i ((s.slots i).refs - 1)).goto c
      (if (s.slots i).refs = 1 then .unpinned i else .idle)).Inv := by
  have hpos : 0 < (s.slots i).refs := h.refs_pos (c := c) (by simp [SlotUser.pins, hpc, Pc.pin])
  have hno : ∀ d, (s.users d).pc.recycled ≠ some i := by
    intro d hd
    have := ((h.requires d i).recycled hd).2
    omega
  split
  next hone =>
    refine h.moves (h.keep (u := { s.users c with pc := .unpinned i })
      (t := { s.slots i with refs := (s.slots i).refs - 1 }) (by rw [hpc]; rfl) rfl rfl ?_ ?_
      (fun _ _ => rfl) (Or.inl (h.lt_of_refs hpos)) (by simp [hpc, Pc.pin]; omega)
      (by simp [hpc, Pc.txnPin]) rfl id rfl rfl (fun _ hz => by simp only; omega)
      (by simp [Pc.last]) (fun _ d _ => hno d) (by simp [Pc.recycled]) (by simp [Pc.recycled])
      (by simp [Pc.merged]) (by simp [Pc.mergeTask]) (by simp) (by simp)) rfl rfl rfl rfl
    all_goals
      intro j hj
      simp [hpc, Pc.slot, hj.symm]
  next hmore =>
    refine h.moves (h.keep_quiet (u := { s.users c with pc := .idle })
      (t := { s.slots i with refs := (s.slots i).refs - 1 }) (by rw [hpc]; rfl)
      ⟨rfl, rfl, rfl, rfl, rfl⟩ rfl ?_ (by simp [Pc.slot]) (fun _ _ => rfl)
      (Or.inl (h.lt_of_refs hpos)) (by simp [hpc, Pc.pin]; omega) (by simp [hpc, Pc.txnPin])
      rfl rfl rfl rfl (fun _ hz => by simp only; omega) ?_) rfl rfl rfl rfl
    . intro j hj
      simp [hpc, Pc.slot, hj.symm]
    . intro _ hz
      simp only at hz
      omega

theorem Inv.resume_unpinned (hpc : (s.users c).pc = .unpinned i)
    (hlast : (s.slots i).state = .merged →
      (s.slots i).refs = 0 ∧ ∀ d, d ≠ c → (s.users d).pc.last ≠ some i) :
    (s.goto c (if (s.slots i).state = .merged then .recycle i else .idle)).Inv := by
  split
  next hm =>
    obtain ⟨hz, hno⟩ := hlast hm
    have hrec : ∀ d, d ≠ c → (s.users d).pc.recycled ≠ some i :=
      fun d hd hr => hno d hd (Pc.last_of_recycled hr)
    refine h.moves (h.keep (u := { s.users c with pc := .recycle i }) (t := s.slots i)
      (by rw [hpc]; rfl) rfl rfl ?_ ?_ (fun _ _ => rfl) (Or.inr rfl) (by simp [hpc, Pc.pin])
      (by simp [hpc, Pc.txnPin]) rfl id rfl rfl (fun _ hz => hz) (by simp [Pc.last])
      (fun _ => hrec) (fun _ => ⟨hm, hz⟩) (fun _ => hno) (by simp [Pc.merged])
      (by simp [Pc.mergeTask]) (by simp) (by simp)) rfl (update_eq_self i s.slots).symm rfl rfl
    all_goals
      intro j hj
      simp [hpc, Pc.slot, hj.symm]
  next hm =>
    refine h.moves (h.keep_quiet (u := { s.users c with pc := .idle }) (t := s.slots i)
      (by rw [hpc]; rfl) ⟨rfl, rfl, rfl, rfl, rfl⟩ rfl ?_ (by simp [Pc.slot]) (fun _ _ => rfl)
      (Or.inr rfl) (by simp [hpc, Pc.pin]) (by simp [hpc, Pc.txnPin]) rfl rfl rfl rfl
      (fun _ hz => hz) (fun hm' _ => absurd hm' hm)) rfl (update_eq_self i s.slots).symm rfl rfl
    intro j hj
    simp [hpc, Pc.slot, hj.symm]

theorem Inv.txnRefs_of_refs (hz : (s.slots i).refs = 0) : (s.slots i).txnRefs = 0 := by
  have hle : ∑ d, (s.users d).txnPins i ≤ ∑ d, (s.users d).pins i :=
    Finset.sum_le_sum fun d _ => (s.users d).txnPins_le i
  rw [← h.refs i, ← h.txnRefs i] at hle
  omega

theorem Inv.resume_recycle (hpc : (s.users c).pc = .recycle i) :
    ((s.setSlot i { s.slots i with inMain := true }).goto c (.emptied i)).Inv := by
  obtain ⟨hm, hz⟩ := (h.requires c i).recycled (by rw [hpc]; rfl)
  have hlast : ∀ d, d ≠ c → (s.users d).pc.last ≠ some i :=
    fun d hd hl => hd (h.recycler c d i (by rw [hpc]; rfl) hl).symm
  refine h.moves (h.keep (u := { s.users c with pc := .emptied i })
    (t := { s.slots i with inMain := true }) (by rw [hpc]; rfl) rfl rfl ?_ ?_
    (fun _ _ => rfl) (Or.inl (h.lt_of_state (by simp [hm]))) (by simp [hpc, Pc.pin])
    (by simp [hpc, Pc.txnPin]) rfl (fun _ => rfl) rfl rfl (fun _ hz => hz)
    (by simp [Pc.last]) (fun _ d hd hr => hlast d hd (Pc.last_of_recycled hr)) (fun _ => ⟨hm, hz⟩)
    (fun _ => hlast) (by simp [Pc.merged]) (by simp [Pc.mergeTask]) (by simp) (by simp))
    rfl rfl rfl rfl
  all_goals
    intro j hj
    simp [hpc, Pc.slot, hj.symm]

theorem Inv.resume_emptied (hpc : (s.users c).pc = .emptied i) :
    ((s.setSlot i { s.slots i with
      state := .empty, recycles := (s.slots i).recycles + 1 }).goto c .idle).Inv := by
  obtain ⟨hm, hz⟩ := (h.requires c i).recycled (by rw [hpc]; rfl)
  have hws : ∀ d, (s.users d).writeSource ≠ some i := by
    intro d hd
    have := h.pinned hd
    omega
  have hreq : ∀ d, (s.users d).pc ≠ .claim i ∧ (s.users d).pc.merged ≠ some i := by
    intro d
    have hr := h.requires d i
    constructor
    . intro hc
      exact absurd (hm.symm.trans (hr.claim hc)) (by decide)
    . intro hc
      exact absurd (hm.symm.trans (hr.merged hc)) (by decide)
  have hmerges := h.merges i
  rw [if_pos hm] at hmerges
  refine h.moves (u := { s.users c with pc := .idle })
    (t := { s.slots i with state := .empty, recycles := (s.slots i).recycles + 1 })
    ⟨Or.inl (h.lt_of_state (by simp [hm])), ?_, ?_, ?_, ?_, ⟨fun hd => absurd hd (hws c), by simp,
      by simp [Pc.recycled], by simp [Pc.merged], by simp, by simp⟩, ?_, ?_, by
      simp [SlotState.owned], fun _ => h.inMain i (by rw [hm]; rfl), hmerges, by simp,
      by simp [Pc.recycled], by simp [Pc.last], by simp [Pc.mergeTask]⟩ rfl rfl rfl rfl
  . refine SlotUser.elsewhere_other (by rw [hpc]; rfl) rfl rfl rfl rfl ?_ (by simp [Pc.slot])
      (fun _ _ => rfl)
    intro j hj
    simp [hpc, Pc.slot, hj.symm]
  . have hwf := h.wf c
    rw [SlotUser.wf_of_other (by rw [hpc]; rfl)] at hwf
    rw [SlotUser.wf_of_other (by rfl)]
    exact hwf
  . simp [SlotUser.pins, hpc, Pc.pin]
  . simp [SlotUser.txnPins, hpc, Pc.txnPin]
  . intro d hd
    refine ⟨fun hd => absurd hd (hws d), fun hd => absurd hd (hreq d).1, ?_,
      fun hd => absurd hd (hreq d).2, ?_, by simp⟩
    . intro hr
      exact absurd (h.recycler c d i (by rw [hpc]; rfl) (Pc.last_of_recycled hr)).symm hd
    . intro ha
      exact absurd (by rw [ha]; rfl) (hreq d).2
  . rintro (ho | ho)
    . exact absurd ho (hws c)
    . simp at ho

theorem Inv.resume_taken (hpc : (s.users c).pc = .taken i) :
    ((s.setRefs i ((s.slots i).refs + 1)).goto c (.mergePinned i)).Inv := by
  have hm := (h.requires c i).merged (by rw [hpc]; rfl)
  refine h.moves (h.keep (u := { s.users c with pc := .mergePinned i })
    (t := { s.slots i with refs := (s.slots i).refs + 1 }) (by rw [hpc]; rfl) rfl rfl ?_ ?_
    (fun _ _ => rfl) (Or.inl (h.lt_of_state (by simp [hm]))) (by simp [hpc, Pc.pin]; omega)
    (by simp [hpc, Pc.txnPin]) rfl id rfl rfl (by simp [hm]) (by simp [hm]) (by simp [Pc.last])
    (by simp [Pc.recycled]) (by simp [Pc.recycled]) (fun _ => hm) (fun _ => ?_) (by simp)
    (by simp)) rfl rfl rfl rfl
  . intro j hj
    simp [hpc, Pc.slot, hj.symm]
  . intro j hj
    simp [Pc.slot, hj.symm]
  . exact h.merger c (by rw [hpc]; rfl)

theorem Inv.resume_mergePinned (hpc : (s.users c).pc = .mergePinned i) :
    ((s.setTxnRefs i ((s.slots i).txnRefs + 1)).goto c (.applying i)).Inv := by
  have hm := (h.requires c i).merged (by rw [hpc]; rfl)
  refine h.moves (h.keep (u := { s.users c with pc := .applying i })
    (t := { s.slots i with txnRefs := (s.slots i).txnRefs + 1 }) (by rw [hpc]; rfl) rfl rfl ?_ ?_
    (fun _ _ => rfl) (Or.inl (h.lt_of_state (by simp [hm]))) (by simp [hpc, Pc.pin])
    (by simp [hpc, Pc.txnPin]; omega) rfl id rfl rfl (by simp [hm]) (by simp [hm])
    (by simp [Pc.last]) (by simp [Pc.recycled]) (by simp [Pc.recycled]) (fun _ => hm)
    (fun _ => ?_) (by simp) (by simp)) rfl rfl rfl rfl
  . intro j hj
    simp [hpc, Pc.slot, hj.symm]
  . intro j hj
    simp [Pc.slot, hj.symm]
  . exact h.merger c (by rw [hpc]; rfl)

/-- `_do_merge` ends, with an exception or without one. -/
theorem Inv.resume_applying {pc : Pc} {b : Bool} (hpc : (s.users c).pc = .applying i)
    (hnew : pc = .applied i ∧ b = true ∨ pc = .failed i ∧ b = (s.slots i).inMain) :
    ((s.setSlot i { s.slots i with txnRefs := (s.slots i).txnRefs - 1, inMain := b }).goto c
      pc).Inv := by
  have hm := (h.requires c i).merged (by rw [hpc]; rfl)
  have htask := h.merger c (by rw [hpc]; rfl)
  have htxn := h.txnPins_le c i
  simp only [SlotUser.txnPins, hpc, Pc.txnPin, ↓reduceIte] at htxn
  have hpin : (s.users c).pc.pin = some i := by rw [hpc]; rfl
  have htxnPin : (s.users c).pc.txnPin = some i := by rw [hpc]; rfl
  have hslot : pc.slot = some i ∧ pc.other = true ∧ pc.pin = some i ∧ pc.txnPin = none ∧
      pc.last = none ∧ pc.recycled = none := by
    rcases hnew with ⟨rfl, -⟩ | ⟨rfl, -⟩ <;> exact ⟨rfl, rfl, rfl, rfl, rfl, rfl⟩
  obtain ⟨h1, h2, h3, h4, h5, h6⟩ := hslot
  refine h.moves (h.keep (u := { s.users c with pc })
    (t := { s.slots i with txnRefs := (s.slots i).txnRefs - 1, inMain := b })
    (by rw [hpc]; rfl) h2 rfl ?_ ?_ (fun _ _ => rfl) (Or.inl (h.lt_of_state (by simp [hm])))
    (by simp [hpin, h3]) (by simp [htxnPin, h4]; omega) rfl ?_ rfl rfl
    (by simp [hm]) (by simp [hm]) (by simp [h5]) (by simp [h6])
    (by simp [h6]) (fun _ => hm) (fun _ => htask) ?_ ?_) rfl rfl rfl rfl
  . intro j hj
    simp [hpc, Pc.slot, hj.symm]
  . intro j hj
    simp [h1, hj.symm]
  . rcases hnew with ⟨-, rfl⟩ | ⟨-, rfl⟩
    . exact fun _ => rfl
    . exact id
  . rcases hnew with ⟨-, rfl⟩ | ⟨rfl, -⟩
    . exact fun _ => rfl
    . simp
  . rcases hnew with ⟨rfl, -⟩ | ⟨rfl, -⟩ <;> simp

theorem Inv.resume_failedUnpin (hpc : (s.users c).pc = .failedUnpin i) :
    ((s.setRefs i ((s.slots i).refs - 1)).goto c .idle).Inv := by
  have hm := (h.requires c i).failedUnpin hpc
  have hpos : 0 < (s.slots i).refs := h.refs_pos (c := c) (by simp [SlotUser.pins, hpc, Pc.pin])
  refine h.moves (h.keep_quiet (u := { s.users c with pc := .idle })
    (t := { s.slots i with refs := (s.slots i).refs - 1 }) (by rw [hpc]; rfl) ⟨rfl, rfl, rfl, rfl, rfl⟩ rfl ?_
    (by simp [Pc.slot]) (fun _ _ => rfl) (Or.inl (h.lt_of_refs hpos))
    (by simp [hpc, Pc.pin]; omega) (by simp [hpc, Pc.txnPin]) rfl rfl rfl rfl
    (fun hm' _ => absurd hm' hm) (fun hm' _ => absurd hm' hm)) rfl rfl rfl rfl
  intro j hj
  simp [hpc, Pc.slot, hj.symm]

/-- A step of the merge task that changes the state of the slot. -/
theorem Inv.mergeStep (pc : Pc) {t : Slot} (hpc : (s.users none).pc.other = true)
    (hnew : pc.other = true) (hold : ∀ j, j ≠ i → (s.users none).pc.slot ≠ some j)
    (hslot : ∀ j, j ≠ i → pc.slot ≠ some j)
    (hstate : (s.slots i).state = .attached ∨ (s.slots i).state = .merging)
    (hrefs : t.refs = (s.slots i).refs) (htxn : t.txnRefs = (s.slots i).txnRefs)
    (hpin : (s.users none).pc.pin = pc.pin) (htxnPin : (s.users none).pc.txnPin = pc.txnPin)
    (hexp : ∀ d, (s.users d).writeSource = some i → (s.users d).Expects t.state)
    (hother : pc.recycled ≠ some i ∧ pc ≠ .applied i ∧ pc.last ≠ some i)
    (hmer : pc.merged = some i → t.state = .merging)
    (hfail : pc = .failedUnpin i → t.state ≠ .merged)
    (howned : t.state.owned = true → ∃ d, (s.users d).writeSource = some i)
    (hmain : t.state.readable = false → t.inMain = true)
    (hmerges : t.merges = t.recycles + if t.state = .merged then 1 else 0)
    (hlast : t.state = .merged → t.refs ≠ 0) :
    ((s.setSlot i t).goto none pc).Inv := by
  have hclaim : ∀ d, (s.users d).pc ≠ .claim i := by
    intro d hd
    have := (h.requires d i).claim hd
    rcases hstate with hs | hs <;> exact absurd (this.symm.trans hs) (by decide)
  have hrec : ∀ d, (s.users d).pc.recycled ≠ some i := by
    intro d hd
    have := ((h.requires d i).recycled hd).1
    rcases hstate with hs | hs <;> exact absurd (this.symm.trans hs) (by decide)
  have hnewClaim : pc ≠ .claim i := by
    rintro rfl
    simp [Pc.other] at hnew
  have hlt : i < s.count := by
    refine h.lt_of_state ?_
    rcases hstate with hs | hs <;> simp [hs]
  refine h.moves (u := { s.users none with pc }) (t := t) ⟨Or.inl hlt, ?_, ?_, ?_, ?_,
    ⟨?_, ?_, ?_, hmer, ?_, hfail⟩, ?_, ?_, ?_, hmain, hmerges, ?_, ?_, ?_, ?_⟩ rfl rfl rfl rfl
  . exact SlotUser.elsewhere_other hpc hnew rfl rfl rfl hold hslot (fun _ _ => rfl)
  . have hwf := h.wf none
    rw [SlotUser.wf_of_other hpc] at hwf
    rw [SlotUser.wf_of_other hnew]
    exact hwf
  . simp [SlotUser.pins, hrefs, hpin]
  . simp [SlotUser.txnPins, htxn, htxnPin]
  . intro hws
    have := hexp none hws
    rw [SlotUser.expects_of_other hpc] at this
    rw [SlotUser.expects_of_other hnew]
    exact this
  . exact fun hc => absurd hc hnewClaim
  . exact fun hc => absurd hc hother.1
  . exact fun hc => absurd hc hother.2.1
  . intro d hd
    have hreq := h.requires d i
    refine ⟨hexp d, fun hc => absurd hc (hclaim d), fun hc => absurd hc (hrec d), ?_, ?_, ?_⟩
    . intro hm
      refine absurd (h.merger d ?_) hd
      cases hp : (s.users d).pc <;> simp [hp, Pc.merged, Pc.mergeTask] at hm ⊢
    . intro ha
      exact absurd (h.merger d (by rw [ha]; rfl)) hd
    . intro hf
      exact absurd (h.merger d (by rw [hf]; rfl)) hd
  . rintro (ho | ho) d hd ho'
    . exact hd (h.unique d none i ho' (Or.inl ho))
    . exact absurd ho hnewClaim
  . intro ho
    obtain ⟨d, hd⟩ := howned ho
    by_cases hdn : d = none
    . rw [hdn] at hd
      exact Or.inl (Or.inl hd)
    . exact Or.inr ⟨d, hdn, Or.inl hd⟩
  . exact fun hm hz => absurd hz (hlast hm)
  . exact fun hc => absurd hc hother.1
  . exact fun hc => absurd hc hother.2.2
  . exact fun _ => rfl

theorem Inv.merge (hpc : (s.users none).pc = .idle)
    (hstate : (s.slots i).state = .attached ∨ (s.slots i).state = .merging) :
    ((s.setState i .merging).goto none (.taken i)).Inv := by
  have hmerged : (s.slots i).state ≠ .merged := by
    rcases hstate with hs | hs <;> simp [hs]
  have hmerges := h.merges i
  rw [if_neg hmerged] at hmerges
  refine h.mergeStep (.taken i) (t := { s.slots i with state := .merging })
    (by rw [hpc]; rfl) rfl (by simp [hpc, Pc.slot]) ?_ hstate rfl rfl (by rw [hpc]; rfl)
    (by rw [hpc]; rfl) ?_ (by simp [Pc.recycled, Pc.last]) (fun _ => rfl) (by simp)
    (by simp [SlotState.owned]) (by simp [SlotState.readable]) hmerges (by simp)
  . intro j hj
    simp [Pc.slot, hj.symm]
  . intro d hd
    exact ((h.requires d i).source hd).move hstate (by simp) (by simp)

theorem Inv.resume_applied (hpc : (s.users c).pc = .applied i) :
    ((s.setSlot i { s.slots i with state := .merged, merges := (s.slots i).merges + 1 }).goto c
      (.unpin i)).Inv := by
  obtain rfl := h.merger c (by rw [hpc]; rfl)
  have hm := (h.requires none i).merged (by rw [hpc]; rfl)
  have hpos : 0 < (s.slots i).refs := h.refs_pos (c := none) (by simp [SlotUser.pins, hpc, Pc.pin])
  have hmerges := h.merges i
  rw [if_neg (by simp [hm])] at hmerges
  refine h.mergeStep (.unpin i)
    (t := { s.slots i with state := .merged, merges := (s.slots i).merges + 1 })
    (by rw [hpc]; rfl) rfl ?_ ?_ (Or.inr hm) rfl rfl (by rw [hpc]; rfl)
    (by rw [hpc]; rfl) ?_ (by simp [Pc.recycled, Pc.last]) (by simp [Pc.merged]) (by simp)
    (by simp [SlotState.owned]) (fun _ => (h.requires none i).applied hpc) (by simp [hmerges])
    (fun _ => by simp only; omega)
  . intro j hj
    simp [hpc, Pc.slot, hj.symm]
  . intro j hj
    simp [Pc.slot, hj.symm]
  . intro d hd
    exact ((h.requires d i).source hd).move (Or.inr hm) (by simp) (by simp)

/-- The slot of a merge that has failed still has its owner. -/
theorem Inv.resume_failed (hpc : (s.users c).pc = .failed i) {d : Option (Fin n)}
    (hws : (s.users d).writeSource = some i) (hpark : (s.users d).pc ≠ .park) :
    ((s.setState i .attached).goto c (.failedUnpin i)).Inv := by
  obtain rfl := h.merger c (by rw [hpc]; rfl)
  have hm := (h.requires none i).merged (by rw [hpc]; rfl)
  have hmerges := h.merges i
  rw [if_neg (by simp [hm])] at hmerges
  refine h.mergeStep (.failedUnpin i) (t := { s.slots i with state := .attached })
    (by rw [hpc]; rfl) rfl ?_ ?_ (Or.inr hm) rfl rfl (by rw [hpc]; rfl)
    (by rw [hpc]; rfl) ?_ (by simp [Pc.recycled, Pc.last]) (by simp [Pc.merged]) (by simp)
    (fun _ => ⟨d, hws⟩) (by simp [SlotState.readable]) hmerges (by simp)
  . intro j hj
    simp [hpc, Pc.slot, hj.symm]
  . intro j hj
    simp [Pc.slot, hj.symm]
  . intro e he
    obtain rfl := h.unique e d i (Or.inl he) (Or.inl hws)
    exact ((h.requires e i).source he).move (Or.inr hm) (by simp) (fun hp => absurd hp hpark)

/-- Nobody relies on an empty slot. -/
theorem Inv.away_empty (hstate : (s.slots i).state = .empty) (d : Option (Fin n)) :
    ¬ (s.users d).Owns i ∧ (s.users d).pc.recycled ≠ some i ∧ (s.users d).pc.merged ≠ some i := by
  have hreq := h.requires d i
  refine ⟨?_, ?_, ?_⟩
  . rintro (ho | ho)
    . have hexp := hreq.source ho
      rw [hstate] at hexp
      exact SlotUser.not_expects_empty _ hexp
    . exact absurd (hstate.symm.trans (hreq.claim ho)) (by decide)
  . exact fun hr => absurd (hstate.symm.trans (hreq.recycled hr).1) (by decide)
  . exact fun hr => absurd (hstate.symm.trans (hreq.merged hr)) (by decide)

/-- A thread without a write source claims an empty slot. -/
theorem Inv.claimed {u : SlotUser} {t : Slot} (hpc : (s.users c).pc = .idle)
    (hws : (s.users c).writeSource = none) (hlt : i < s.count)
    (hstate : (s.slots i).state = .empty)
    (hu : u.sources = (s.users c).sources ∧ u.inTransaction = false ∧ u.writeCursor = false)
    (hclaim : u.pc = .claim i ∧ u.writeSource = none ∧ t.refs = (s.slots i).refs ∨
      u.pc = .reinit ∧ u.writeSource = some i ∧ t.refs = (s.slots i).refs + 1)
    (htxn : t.txnRefs = (s.slots i).txnRefs) (hfirst : t.state = .firstWriting)
    (hmain : t.inMain = true) (hmerges : t.merges = t.recycles) : s.Moves c u i t := by
  have hwc : (s.users c).writeCursor = false := by
    have hwf := h.wf c
    rw [SlotUser.wf_of_other (by rw [hpc]; rfl), hws] at hwf
    exact hwf.1
  have haway := h.away_empty hstate
  have hpin : u.pc.txnPin = none ∧ u.pc.pin = none ∧ u.pc.last = none ∧ u.pc.recycled = none ∧
      u.pc.merged = none ∧ u.pc.mergeTask = false := by
    rcases hclaim with ⟨hp, -⟩ | ⟨hp, -⟩ <;> rw [hp] <;> exact ⟨rfl, rfl, rfl, rfl, rfl, rfl⟩
  obtain ⟨h1, h2, h3, h4, h5, h6⟩ := hpin
  have hidle : (s.users c).pc.pin = none ∧ (s.users c).pc.txnPin = none := by
    rw [hpc]
    exact ⟨rfl, rfl⟩
  have howns : u.Owns i := by
    rcases hclaim with ⟨hp, -⟩ | ⟨-, hp, -⟩
    . exact Or.inr hp
    . exact Or.inl hp
  refine ⟨Or.inl hlt, ?_, ?_, ?_, ?_, ⟨?_, fun _ => hfirst, by simp [h4], by simp [h5], ?_, ?_⟩, ?_,
    fun _ d _ => (haway d).1, fun _ => Or.inl howns, fun _ => hmain, by simp [hmerges, hfirst],
    by simp [hfirst], by simp [h4], by simp [h3], by simp [h6]⟩
  . refine SlotUser.elsewhere_write (by simp [hws]) ?_ (by simp [hpc, Pc.slot]) ?_ hu.1
    . intro j hj
      rcases hclaim with ⟨-, hw, -⟩ | ⟨-, hw, -⟩ <;> simp [hw, hj.symm]
    . intro j hj
      rcases hclaim with ⟨hp, -⟩ | ⟨hp, -⟩ <;> simp [hp, Pc.slot, hj.symm]
  . rcases hclaim with ⟨hp, hw, -⟩ | ⟨hp, hw, -⟩ <;> simp [SlotUser.Wf, hp, hw, hu]
  . rcases hclaim with ⟨-, hw, hr⟩ | ⟨-, hw, hr⟩ <;>
      simp [SlotUser.pins, hw, hws, hr, h2, hu, hidle]
    omega
  . simp [SlotUser.txnPins, hws, htxn, h1, hu, hidle]
  . intro hw
    rcases hclaim with ⟨-, hw', -⟩ | ⟨hp, -, -⟩
    . simp [hw'] at hw
    . simp [SlotUser.Expects, hp, hfirst]
  . intro ha
    simp [ha, Pc.merged] at h5
  . intro ha
    simp [ha, Pc.mergeTask] at h6
  . intro d _
    obtain ⟨ho, hr, hm⟩ := haway d
    refine ⟨fun hw => absurd (Or.inl hw) ho, fun hw => absurd (Or.inr hw) ho,
      fun hw => absurd hw hr, fun hw => absurd hw hm, ?_, by simp [hfirst]⟩
    intro ha
    exact absurd (by rw [ha]; rfl) hm

theorem Inv.claim (hpc : (s.users c).pc = .idle) (hT : (s.users c).inTransaction = false)
    (hws : (s.users c).writeSource = none) (hlt : i < s.count)
    (hstate : (s.slots i).state = .empty) :
    ((s.setState i .firstWriting).goto c (.claim i)).Inv := by
  have hwc : (s.users c).writeCursor = false := by
    have hwf := h.wf c
    rw [SlotUser.wf_of_other (by rw [hpc]; rfl), hws] at hwf
    exact hwf.1
  have hmerges := h.merges i
  rw [if_neg (by simp [hstate])] at hmerges
  exact h.moves (h.claimed (u := { s.users c with pc := .claim i })
    (t := { s.slots i with state := .firstWriting }) hpc hws hlt hstate ⟨rfl, hT, hwc⟩
    (Or.inl ⟨rfl, hws, rfl⟩) rfl rfl (h.inMain i (by rw [hstate]; rfl)) hmerges) rfl rfl rfl rfl

theorem Inv.grow : Inv { s with count := s.count + 1 } :=
  { h with beyond := fun i hi => h.beyond i (by simp only at hi; omega) }

theorem Inv.alloc (hpc : (s.users c).pc = .idle) (hT : (s.users c).inTransaction = false)
    (hws : (s.users c).writeSource = none) :
    (({ s with count := s.count + 1 }.setSlot s.count (.fresh .firstWriting 1)).setUser c
      { s.users c with writeSource := some s.count, pc := .reinit }).Inv := by
  have hwc : (s.users c).writeCursor = false := by
    have hwf := h.wf c
    rw [SlotUser.wf_of_other (by rw [hpc]; rfl), hws] at hwf
    exact hwf.1
  have hbeyond := h.beyond s.count le_rfl
  exact h.grow.moves (h.grow.claimed
    (u := { s.users c with writeSource := some s.count, pc := .reinit })
    (t := .fresh .firstWriting 1) hpc hws (Nat.lt_succ_self _) (by simp only [hbeyond]; rfl)
    ⟨rfl, hT, hwc⟩ (Or.inr ⟨rfl, rfl, by simp only [hbeyond]; rfl⟩) (by simp only [hbeyond]; rfl)
    rfl rfl rfl) rfl rfl rfl rfl

end Steps

section Steps

variable {s : SlotTable n} (h : s.Inv) {c : Option (Fin n)} {i : Nat}

include h

theorem Inv.resume_claim (hpc : (s.users c).pc = .claim i) :
    ((s.setRefs i ((s.slots i).refs + 1)).setUser c
      { s.users c with writeSource := some i, pc := .reinit }).Inv := by
  have hwf := h.wf c
  simp only [SlotUser.Wf, hpc] at hwf
  have hfirst := (h.requires c i).claim hpc
  refine h.moves (u := { s.users c with writeSource := some i, pc := .reinit })
    (t := { s.slots i with refs := (s.slots i).refs + 1 })
    ⟨Or.inl (h.lt_of_state (by simp [hfirst])), ?_, ?_, ?_, ?_, ⟨fun _ => hfirst, by simp,
      by simp [Pc.recycled], by simp [Pc.merged], by simp, by simp⟩, ?_, ?_, fun _ => Or.inl ?_,
      h.inMain i, h.merges i, by simp [hfirst], by simp [Pc.recycled], by simp [Pc.last],
      by simp [Pc.mergeTask]⟩ rfl rfl rfl rfl
  . refine SlotUser.elsewhere_write (by simp [hwf]) ?_ ?_ (by simp [Pc.slot]) rfl
    all_goals
      intro j hj
      simp [hpc, Pc.slot, hj.symm]
  . simp [SlotUser.Wf, hwf]
  . simp [SlotUser.pins, hpc, hwf, Pc.pin]
    omega
  . simp [SlotUser.txnPins, hpc, hwf, Pc.txnPin]
  . intro d hd
    have hreq := h.requires d i
    refine ⟨hreq.source, hreq.claim, ?_, hreq.merged, hreq.applied, hreq.failedUnpin⟩
    intro hr
    exact absurd (hfirst.symm.trans (hreq.recycled hr).1) (by decide)
  . exact fun _ d hd ho => hd (h.unique d c i ho (Or.inr hpc))
  . exact Or.inl rfl

theorem Inv.resume_park (hpc : (s.users c).pc = .park) (hws : (s.users c).writeSource = some i) :
    ((s.setTxnRefs i ((s.slots i).txnRefs - (s.users c).writeCursor.toNat)).setUser c
      { s.users c with writeSource := none, writeCursor := false, pc := .unpin i }).Inv := by
  have hwf := h.wf c
  simp only [SlotUser.Wf, hpc] at hwf
  have hexp := (h.requires c i).source hws
  simp only [SlotUser.Expects, hpc] at hexp
  have hpos := h.pinned hws
  have htxn := h.txnPins_le c i
  simp only [SlotUser.txnPins, hws, hwf, and_self, ↓reduceIte] at htxn
  refine h.moves
    (u := { s.users c with writeSource := none, writeCursor := false, pc := .unpin i })
    (t := { s.slots i with
      txnRefs := (s.slots i).txnRefs - (s.users c).writeCursor.toNat })
    ⟨Or.inl (h.lt_of_refs hpos), ?_, ?_, ?_, ?_, ⟨by simp, by simp, by simp [Pc.recycled],
      by simp [Pc.merged], by simp, by simp⟩, fun d _ => ?_, by simp [SlotUser.Owns], ?_,
      h.inMain i, h.merges i, ?_, by simp [Pc.recycled], by simp [Pc.last],
      by simp [Pc.mergeTask]⟩ rfl rfl rfl rfl
  . refine SlotUser.elsewhere_write ?_ (by simp) (by simp [hpc, Pc.slot]) ?_ rfl
    all_goals
      intro j hj
      simp [hws, Pc.slot, hj.symm]
  . simp [SlotUser.Wf, hwf]
  . simp [SlotUser.pins, hpc, hws, Pc.pin]
    omega
  . simp [SlotUser.txnPins, hpc, hws, hwf, Pc.txnPin]
    omega
  . have hreq := h.requires d i
    exact ⟨hreq.source, hreq.claim, hreq.recycled, hreq.merged, hreq.applied, hreq.failedUnpin⟩
  . intro ho
    rcases hexp with hexp | hexp <;> simp [hexp, SlotState.owned] at ho
  . intro _ hz
    simp only at hz
    omega

end Steps

end SlotTable
end Leaves
