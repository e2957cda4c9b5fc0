import Leaves.Memory.TwoQCache

/-!
The invariant of the cache with two queues, over every sequence of calls.
-/

namespace Leaves

variable {Key : Type} [DecidableEq Key]

/-- A queue is a list and a map with the same entries. -/
structure Queue (l : IntrusiveList) (map : Key → Option Nat) (e : Entries Key) (cells : List Nat) :
    Prop where
  list : l.Holds e cells
  map_eq : ∀ key a, map key = some a ↔ a ∈ cells ∧ e.key a = key

namespace Queue

variable {l : IntrusiveList} {map : Key → Option Nat} {e e' : Entries Key}
  {cells cells' pre post : List Nat} {node : Nat} {key : Key}

omit [DecidableEq Key] in
theorem empty (e : Entries Key) : Queue IntrusiveList.empty (fun _ => none) e [] :=
  ⟨IntrusiveList.Holds.empty e, by simp⟩

omit [DecidableEq Key] in
theorem frame (h : Queue l map e cells) (hframe : e.Frame e' cells')
    (happart : cells.Disjoint cells') : Queue l map e' cells := by
  constructor
  . exact h.list.frame hframe happart
  . rw [hframe.key_eq]
    exact h.map_eq

omit [DecidableEq Key] in
/-- Taking a slot that is not in the queue does not change the queue. -/
theorem alloc (h : Queue l map e cells) {p : ObjectPool} {value : Nat}
    (hmem : (p.alloc e key value).2.2 ∉ cells) :
    Queue l map (p.alloc e key value).2.1 cells := by
  have hne : ∀ a ∈ cells, a ≠ (p.alloc e key value).2.2 := by
    rintro a ha rfl
    exact hmem ha
  constructor
  . apply h.list.congr
    . intro a ha
      exact Function.update_of_ne (hne a ha) ..
    . intro a ha
      exact Function.update_of_ne (hne a ha) ..
  . intro k a
    rw [h.map_eq k a]
    apply and_congr_right
    intro ha
    have hkey : (p.alloc e key value).2.1.key a = e.key a := Function.update_of_ne (hne a ha) ..
    rw [hkey]

theorem enter (h : Queue l map e cells) (hmem : node ∉ cells) (hnode : node ≠ 0)
    (hkey : e.key node = key) (hnone : map key = none) :
    Queue (l.pushBack e node).1 (Function.update map key (some node)) (l.pushBack e node).2
      (cells ++ [node]) := by
  constructor
  . exact h.list.pushBack hmem hnode
  . intro k a
    rw [h.list.frame_pushBack.key_eq, List.mem_append, List.mem_singleton]
    by_cases hk : k = key
    . subst hk
      rw [Function.update_self, Option.some.injEq]
      constructor
      . rintro rfl
        exact ⟨Or.inr rfl, hkey⟩
      . rintro ⟨ha | ha, hkey'⟩
        . have hsome := (h.map_eq k a).mpr ⟨ha, hkey'⟩
          rw [hnone] at hsome
          cases hsome
        . exact ha.symm
    . rw [Function.update_of_ne hk, h.map_eq]
      constructor
      . rintro ⟨ha, hkey'⟩
        exact ⟨Or.inl ha, hkey'⟩
      . rintro ⟨ha | rfl, hkey'⟩
        . exact ⟨ha, hkey'⟩
        . exact absurd (hkey'.symm.trans hkey) hk

theorem leave (h : Queue l map e (pre ++ node :: post)) (hkey : e.key node = key) :
    Queue (l.unlink e node).1 (Function.update map key none) (l.unlink e node).2 (pre ++ post) := by
  have hperm : ∀ a, a ∈ pre ++ node :: post ↔ a = node ∨ a ∈ pre ++ post := by
    intro a
    rw [List.mem_append, List.mem_cons, List.mem_append]
    tauto
  have hnode : node ∉ pre ++ post := (List.nodup_middle.mp h.list.nodup).notMem
  have hself : map key = some node := (h.map_eq key node).mpr ⟨by simp, hkey⟩
  constructor
  . exact h.list.unlink
  . intro k a
    rw [h.list.frame_unlink.key_eq]
    by_cases hk : k = key
    . subst hk
      rw [Function.update_self]
      constructor
      . intro hnone
        cases hnone
      . rintro ⟨ha, hkey'⟩
        have hsome := (h.map_eq k a).mpr ⟨(hperm a).mpr (Or.inr ha), hkey'⟩
        rw [hself] at hsome
        cases hsome
        exact absurd ha hnode
    . rw [Function.update_of_ne hk, h.map_eq, hperm]
      constructor
      . rintro ⟨rfl | ha, hkey'⟩
        . exact absurd (hkey'.symm.trans hkey) hk
        . exact ⟨ha, hkey'⟩
      . rintro ⟨ha, hkey'⟩
        exact ⟨Or.inr ha, hkey'⟩

omit [DecidableEq Key] in
theorem moveToBack (h : Queue l map e (pre ++ node :: post)) :
    Queue (l.moveToBack e node).1 map (l.moveToBack e node).2 (pre ++ post ++ [node]) := by
  constructor
  . exact h.list.moveToBack
  . intro k a
    rw [h.list.frame_moveToBack.key_eq, h.map_eq]
    apply and_congr_left'
    simp only [List.mem_append, List.mem_cons, List.not_mem_nil, or_false]
    tauto

omit [DecidableEq Key] in
/-- No two entries have the same key. -/
theorem keys_nodup (h : Queue l map e cells) : (cells.map e.key).Nodup := by
  apply h.list.nodup.map_on
  intro a ha b hb hkey
  have hsome := (h.map_eq (e.key b) a).mpr ⟨ha, hkey⟩
  rw [(h.map_eq (e.key b) b).mpr ⟨hb, rfl⟩] at hsome
  cases hsome
  rfl

end Queue

namespace Slices

variable {s : Slices} {value a : Nat}

@[simp] theorem size_incRef : (s.incRef value).size = s.size := by
  unfold incRef
  split <;> rfl

@[simp] theorem size_decRef : (s.decRef value).size = s.size := by
  unfold decRef
  split <;> rfl

theorem ref_incRef : s.ref a ≤ (s.incRef value).ref a := by
  unfold incRef
  split
  . exact Nat.le_refl _
  . by_cases ha : a = value
    . subst ha
      simp
    . simp [Function.update_of_ne ha]

theorem ref_decRef : (s.decRef value).ref a ≤ s.ref a := by
  unfold decRef
  split
  . exact Nat.le_refl _
  . by_cases ha : a = value
    . subst ha
      simp
    . simp [Function.update_of_ne ha]

theorem ref_decRef_of_ne (ha : a ≠ value) : (s.decRef value).ref a = s.ref a := by
  unfold decRef
  split
  . rfl
  . exact Function.update_of_ne ha ..

theorem ref_of_canEvict (h : s.canEvict value = true) : s.ref value ≤ 1 := by
  have hand := of_decide_eq_true h
  omega

end Slices

namespace TwoQCache

variable {c c' c'' : TwoQCache Key} {a1in am ghosts pending cells : List Nat} {key k : Key}
  {value entry ghost : Nat}

/-- The sum of the sizes of some entries. -/
def sizes (c : TwoQCache Key) (cells : List Nat) : Nat := (cells.map c.itemSize).sum

/-- The two queues and the ghosts are lists and maps with the same entries, and no key is in two of
them. -/
structure Books (c : TwoQCache Key) (a1in am ghosts : List Nat) : Prop where
  inQueue : Queue c.a1inList c.a1inMap c.entries a1in
  amQueue : Queue c.amList c.amMap c.entries am
  outQueue : Queue c.a1outList c.a1outMap c.ghosts ghosts
  entryPool : c.entryPool.Holds (a1in ++ am)
  ghostPool : c.ghostPool.Holds ghosts
  apart : ∀ key, c.a1inMap key = none ∨ c.amMap key = none
  ghost : ∀ key, c.a1outMap key = none ∨ c.a1inMap key = none ∧ c.amMap key = none

/-- The sizes that are counted. Those of the entries that are about to be evicted are not. -/
structure Sums (c : TwoQCache Key) (a1in am pending : List Nat) : Prop where
  size : c.size + c.sizes pending = c.sizes a1in + c.sizes am
  a1in : c.a1inCurrentSize + c.sizes pending = c.sizes a1in

def Resident (c : TwoQCache Key) (key : Key) (entry : Nat) : Prop :=
  c.a1inMap key = some entry ∨ c.amMap key = some entry

/-- Someone else has a pointer to the area slice of the entry. -/
def Pinned (c : TwoQCache Key) (entry : Nat) : Prop := 1 < c.slices.ref (c.entries.value entry)

/-- The pinned entries stay in the cache with their values, and stay pinned. -/
def Keeps (c c' : TwoQCache Key) : Prop :=
  ∀ key entry, c.Resident key entry → c.Pinned entry → c'.Resident key entry ∧
    c'.entries.value entry = c.entries.value entry ∧ c'.Pinned entry

omit [DecidableEq Key] in
theorem Keeps.refl (c : TwoQCache Key) : c.Keeps c := fun _ _ hres hpin => ⟨hres, rfl, hpin⟩

omit [DecidableEq Key] in
theorem Keeps.trans (h : c.Keeps c') (h' : c'.Keeps c'') : c.Keeps c'' := by
  intro key entry hres hpin
  obtain ⟨hres', hvalue, hpin'⟩ := h key entry hres hpin
  obtain ⟨hres'', hvalue', hpin''⟩ := h' key entry hres' hpin'
  exact ⟨hres'', hvalue'.trans hvalue, hpin''⟩

omit [DecidableEq Key] in
theorem sizes_congr (h : ∀ a ∈ cells, c'.itemSize a = c.itemSize a) :
    c'.sizes cells = c.sizes cells := by
  unfold sizes
  rw [List.map_congr_left h]

omit [DecidableEq Key] in
theorem sizes_append (c : TwoQCache Key) (cells cells' : List Nat) :
    c.sizes (cells ++ cells') = c.sizes cells + c.sizes cells' := by
  simp [sizes]

omit [DecidableEq Key] in
theorem sizes_cons (c : TwoQCache Key) (a : Nat) (cells : List Nat) :
    c.sizes (a :: cells) = c.itemSize a + c.sizes cells := by
  simp [sizes]

omit [DecidableEq Key] in
theorem sizes_sublist (h : pending.Sublist cells) : c.sizes pending ≤ c.sizes cells := by
  induction h with
  | slnil => exact Nat.le_refl _
  | cons a _ ih =>
    rw [sizes_cons]
    exact Nat.le_add_left_of_le ih
  | cons_cons a _ ih =>
    rw [sizes_cons, sizes_cons]
    exact Nat.add_le_add_left ih _

namespace Books

omit [DecidableEq Key] in
theorem disjoint (h : c.Books a1in am ghosts) : a1in.Disjoint am := by
  have hnodup := h.entryPool.nodup
  rw [← List.append_assoc, List.nodup_append] at hnodup
  intro a ha hb
  exact hnodup.2.2 a (List.mem_append_right _ ha) a hb rfl

omit [DecidableEq Key] in
theorem init (capacity a1inSizeLimit a1outItems : Nat) (entries ghosts : Entries Key)
    (slices : Slices) :
    (TwoQCache.init capacity a1inSizeLimit a1outItems entries ghosts slices).Books [] [] [] where
  inQueue := Queue.empty entries
  amQueue := Queue.empty entries
  outQueue := Queue.empty ghosts
  entryPool := ObjectPool.Holds.empty
  ghostPool := ObjectPool.Holds.empty
  apart := fun _ => Or.inl rfl
  ghost := fun _ => Or.inl rfl

/-- An entry of the first queue goes to the end of the second one. -/
theorem promote {pre post : List Nat} (h : c.Books (pre ++ entry :: post) am ghosts)
    (hkey : c.entries.key entry = key) (hmap : c.a1inMap key = some entry) :
    (c.get key).1.Books (pre ++ post) (am ++ [entry]) ghosts := by
  have hdisjoint := h.disjoint
  have hentry : entry ∉ am := fun hmem => hdisjoint (by simp) hmem
  have hnonzero : entry ≠ 0 := h.entryPool.ne_zero (by simp)
  have hunlink := h.inQueue.list.frame_unlink
  have ham := h.amQueue.frame hunlink (List.disjoint_symm hdisjoint)
  have hnone : c.amMap key = none := by
    apply (h.apart key).resolve_left
    rw [hmap]
    exact Option.some_ne_none entry
  have hnodup := h.inQueue.list.nodup
  have hleft : (pre ++ post).Disjoint (entry :: am) := by
    intro a ha hb
    rw [List.mem_cons] at hb
    rcases hb with rfl | hb
    . exact (List.nodup_middle.mp hnodup).notMem ha
    . apply hdisjoint _ hb
      rw [List.mem_append] at ha ⊢
      exact ha.imp_right (List.mem_cons_of_mem entry)
  unfold get
  rw [hmap]
  dsimp only [IntrusiveList.spliceBack]
  constructor
  . exact (h.inQueue.leave hkey).frame ham.list.frame_pushBack hleft
  . apply ham.enter hentry hnonzero _ hnone
    rw [hunlink.key_eq]
    exact hkey
  . exact h.outQueue
  . apply h.entryPool.perm
    rw [List.perm_iff_count]
    intro a
    simp only [List.count_append, List.count_cons, List.count_nil]
    omega
  . exact h.ghostPool
  . intro k
    by_cases hk : k = key
    . left
      rw [hk]
      exact Function.update_self ..
    . dsimp only
      rw [Function.update_of_ne hk, Function.update_of_ne hk]
      exact h.apart k
  . intro k
    by_cases hk : k = key
    . left
      rw [hk]
      apply (h.ghost key).resolve_right
      rw [hmap]
      intro hand
      cases hand.1
    . dsimp only
      rw [Function.update_of_ne hk, Function.update_of_ne hk]
      exact h.ghost k

/-- An entry of the second queue goes to its end. -/
theorem refresh {pre post : List Nat} (h : c.Books a1in (pre ++ entry :: post) ghosts)
    (hmap : c.amMap key = some entry) :
    (c.get key).1.Books a1in (pre ++ post ++ [entry]) ghosts := by
  have hnone : c.a1inMap key = none := by
    apply (h.apart key).resolve_right
    rw [hmap]
    exact Option.some_ne_none entry
  unfold get
  rw [hnone, hmap]
  constructor
  . exact h.inQueue.frame h.amQueue.list.frame_moveToBack h.disjoint
  . exact h.amQueue.moveToBack
  . exact h.outQueue
  . apply h.entryPool.perm
    rw [List.perm_iff_count]
    intro a
    simp only [List.count_append, List.count_cons, List.count_nil]
    omega
  . exact h.ghostPool
  . exact h.apart
  . exact h.ghost

theorem dropGhost {pre post : List Nat} (h : c.Books a1in am (pre ++ ghost :: post))
    (hkey : c.ghosts.key ghost = key) : (c.dropGhost key ghost).Books a1in am (pre ++ post) where
  inQueue := h.inQueue
  amQueue := h.amQueue
  outQueue := h.outQueue.leave hkey
  entryPool := h.entryPool
  ghostPool := by
    apply ObjectPool.Holds.free
    apply h.ghostPool.perm
    exact List.perm_middle
  apart := h.apart
  ghost := by
    intro k
    by_cases hk : k = key
    . left
      rw [hk]
      exact Function.update_self ..
    . unfold TwoQCache.dropGhost
      dsimp only
      rw [Function.update_of_ne hk]
      exact h.ghost k

theorem enterAm (h : c.Books a1in am ghosts) (hin : c.a1inMap key = none)
    (ham : c.amMap key = none) (hout : c.a1outMap key = none) :
    (c.enterAm key value).Books a1in
      (am ++ [(c.entryPool.alloc c.entries key value).2.2]) ghosts := by
  have halloc := h.entryPool.alloc c.entries key value
  have hnotMem := h.entryPool.alloc_notMem c.entries key value
  have hnonzero := h.entryPool.alloc_ne_zero c.entries key value
  rw [List.mem_append] at hnotMem
  have hin' := h.inQueue.alloc fun hmem => hnotMem (Or.inl hmem)
  have ham' := h.amQueue.alloc fun hmem => hnotMem (Or.inr hmem)
  unfold TwoQCache.enterAm
  dsimp only
  generalize hslot : (c.entryPool.alloc c.entries key value).2.2 = slot at *
  constructor
  . apply hin'.frame ham'.list.frame_pushBack
    intro a ha hb
    rw [List.mem_cons] at hb
    rcases hb with rfl | hb
    . exact hnotMem (Or.inl ha)
    . exact h.disjoint ha hb
  . apply ham'.enter (fun hmem => hnotMem (Or.inr hmem)) hnonzero _ ham
    rw [← hslot]
    exact Function.update_self ..
  . exact h.outQueue
  . apply halloc.perm
    rw [List.perm_iff_count]
    intro a
    simp only [List.count_append, List.count_cons, List.count_nil]
    omega
  . exact h.ghostPool
  . intro k
    by_cases hk : k = key
    . left
      rw [hk]
      exact hin
    . dsimp only
      rw [Function.update_of_ne hk]
      exact h.apart k
  . intro k
    by_cases hk : k = key
    . left
      rw [hk]
      exact hout
    . dsimp only
      rw [Function.update_of_ne hk]
      exact h.ghost k

theorem enterA1in (h : c.Books a1in am ghosts) (hin : c.a1inMap key = none)
    (ham : c.amMap key = none) (hout : c.a1outMap key = none) :
    (c.enterA1in key value).Books (a1in ++ [(c.entryPool.alloc c.entries key value).2.2]) am
      ghosts := by
  have halloc := h.entryPool.alloc c.entries key value
  have hnotMem := h.entryPool.alloc_notMem c.entries key value
  have hnonzero := h.entryPool.alloc_ne_zero c.entries key value
  rw [List.mem_append] at hnotMem
  have hin' := h.inQueue.alloc fun hmem => hnotMem (Or.inl hmem)
  have ham' := h.amQueue.alloc fun hmem => hnotMem (Or.inr hmem)
  unfold TwoQCache.enterA1in
  dsimp only
  generalize hslot : (c.entryPool.alloc c.entries key value).2.2 = slot at *
  constructor
  . apply hin'.enter (fun hmem => hnotMem (Or.inl hmem)) hnonzero _ hin
    rw [← hslot]
    exact Function.update_self ..
  . apply ham'.frame hin'.list.frame_pushBack
    intro a ha hb
    rw [List.mem_cons] at hb
    rcases hb with rfl | hb
    . exact hnotMem (Or.inr ha)
    . exact h.disjoint hb ha
  . exact h.outQueue
  . apply halloc.perm
    rw [List.perm_iff_count]
    intro a
    simp only [List.count_append, List.count_cons, List.count_nil]
    omega
  . exact h.ghostPool
  . intro k
    by_cases hk : k = key
    . right
      rw [hk]
      exact ham
    . dsimp only
      rw [Function.update_of_ne hk]
      exact h.apart k
  . intro k
    by_cases hk : k = key
    . left
      rw [hk]
      exact hout
    . dsimp only
      rw [Function.update_of_ne hk]
      exact h.ghost k

/-- An entry of the first queue becomes a ghost. -/
theorem evictA1in {pre post : List Nat} (h : c.Books (pre ++ entry :: post) am ghosts) :
    (c.evictA1in entry).Books (pre ++ post) am
      (ghosts ++ [(c.ghostPool.alloc c.ghosts (c.entries.key entry) 0).2.2]) := by
  have halloc := h.ghostPool.alloc c.ghosts (c.entries.key entry) 0
  have hnotMem := h.ghostPool.alloc_notMem c.ghosts (c.entries.key entry) 0
  have hnonzero := h.ghostPool.alloc_ne_zero c.ghosts (c.entries.key entry) 0
  have hout' := h.outQueue.alloc hnotMem
  have hmap : c.a1inMap (c.entries.key entry) = some entry :=
    (h.inQueue.map_eq _ entry).mpr ⟨by simp, rfl⟩
  have ham : c.amMap (c.entries.key entry) = none := by
    apply (h.apart _).resolve_left
    rw [hmap]
    exact Option.some_ne_none entry
  have hout : c.a1outMap (c.entries.key entry) = none := by
    apply (h.ghost _).resolve_right
    rw [hmap]
    intro hand
    cases hand.1
  unfold TwoQCache.evictA1in freeEntry addGhost
  dsimp only
  generalize hslot : (c.ghostPool.alloc c.ghosts (c.entries.key entry) 0).2.2 = slot at *
  constructor
  . exact h.inQueue.leave rfl
  . exact h.amQueue.frame h.inQueue.list.frame_unlink (List.disjoint_symm h.disjoint)
  . apply hout'.enter hnotMem hnonzero _ hout
    rw [← hslot]
    exact Function.update_self ..
  . apply ObjectPool.Holds.free
    apply h.entryPool.perm
    rw [List.perm_iff_count]
    intro a
    simp only [List.count_append, List.count_cons]
    omega
  . apply halloc.perm
    rw [List.perm_iff_count]
    intro a
    simp only [List.count_append, List.count_cons, List.count_nil]
    omega
  . intro k
    by_cases hk : k = c.entries.key entry
    . left
      rw [hk]
      exact Function.update_self ..
    . dsimp only
      rw [Function.update_of_ne hk]
      exact h.apart k
  . intro k
    by_cases hk : k = c.entries.key entry
    . right
      rw [hk]
      exact ⟨Function.update_self .., ham⟩
    . dsimp only
      rw [Function.update_of_ne hk, Function.update_of_ne hk]
      exact h.ghost k

theorem evictAm {pre post : List Nat} (h : c.Books a1in (pre ++ entry :: post) ghosts) :
    (c.evictAm entry).Books a1in (pre ++ post) ghosts := by
  unfold TwoQCache.evictAm freeEntry
  dsimp only
  constructor
  . exact h.inQueue.frame h.amQueue.list.frame_unlink h.disjoint
  . exact h.amQueue.leave rfl
  . exact h.outQueue
  . apply ObjectPool.Holds.free
    apply h.entryPool.perm
    rw [List.perm_iff_count]
    intro a
    simp only [List.count_append, List.count_cons]
    omega
  . exact h.ghostPool
  . intro k
    by_cases hk : k = c.entries.key entry
    . right
      rw [hk]
      exact Function.update_self ..
    . dsimp only
      rw [Function.update_of_ne hk]
      exact h.apart k
  . intro k
    by_cases hk : k = c.entries.key entry
    . left
      rw [hk]
      apply (h.ghost _).resolve_right
      rw [(h.amQueue.map_eq _ entry).mpr ⟨by simp, rfl⟩]
      intro hand
      cases hand.2
    . dsimp only
      rw [Function.update_of_ne hk]
      exact h.ghost k

end Books

omit [DecidableEq Key] in
/-- An entry whose slice only the cache points to is another one than a pinned entry. -/
theorem Pinned.value_ne {e : Nat} (h : c.Pinned e)
    (href : c.slices.ref (c.entries.value entry) ≤ 1) :
    c.entries.value e ≠ c.entries.value entry := by
  intro hvalue
  unfold Pinned at h
  rw [hvalue] at h
  omega

theorem value_get : (c.get key).1.entries.value = c.entries.value := by
  unfold get
  split
  . simp [IntrusiveList.spliceBack]
  . split
    . simp
    . rfl

theorem slices_get : (c.get key).1.slices = c.slices := by
  unfold get
  split
  . rfl
  . split <;> rfl

theorem itemSize_get : (c.get key).1.itemSize = c.itemSize := by
  unfold itemSize
  rw [value_get, slices_get]

theorem sizes_get : (c.get key).1.sizes = c.sizes := by
  unfold sizes
  rw [itemSize_get]

theorem Books.keeps_get (h : c.Books a1in am ghosts) : c.Keeps (c.get key).1 := by
  intro k e hres hpin
  unfold Pinned
  rw [value_get, slices_get]
  refine ⟨?_, rfl, hpin⟩
  unfold get
  split
  next entry hmap =>
    by_cases hk : k = key
    . subst hk
      right
      rcases hres with hin | ham
      . rw [hmap] at hin
        cases hin
        exact Function.update_self ..
      . have hnone := (h.apart k).resolve_left (by rw [hmap]; exact Option.some_ne_none entry)
        rw [hnone] at ham
        cases ham
    . unfold Resident
      dsimp only
      rw [Function.update_of_ne hk, Function.update_of_ne hk]
      exact hres
  next =>
    split
    . exact hres
    . exact hres

theorem Books.keeps_evictAm {pre post : List Nat} (h : c.Books a1in (pre ++ entry :: post) ghosts)
    (href : c.slices.ref (c.entries.value entry) ≤ 1) : c.Keeps (c.evictAm entry) := by
  intro k e hres hpin
  have hne := hpin.value_ne href
  have hself : c.amMap (c.entries.key entry) = some entry :=
    (h.amQueue.map_eq _ entry).mpr ⟨by simp, rfl⟩
  have hk : k ≠ c.entries.key entry := by
    rintro rfl
    rcases hres with hin | ham
    . have hnone := (h.apart _).resolve_right (by rw [hself]; exact Option.some_ne_none entry)
      rw [hnone] at hin
      cases hin
    . rw [hself] at ham
      cases ham
      exact hne rfl
  unfold Pinned Resident TwoQCache.evictAm freeEntry
  dsimp only
  rw [IntrusiveList.value_unlink, Function.update_of_ne hk, Slices.ref_decRef_of_ne hne]
  exact ⟨hres, rfl, hpin⟩

theorem Books.keeps_evictA1in {pre post : List Nat} (h : c.Books (pre ++ entry :: post) am ghosts)
    (href : c.slices.ref (c.entries.value entry) ≤ 1) : c.Keeps (c.evictA1in entry) := by
  intro k e hres hpin
  have hne := hpin.value_ne href
  have hself : c.a1inMap (c.entries.key entry) = some entry :=
    (h.inQueue.map_eq _ entry).mpr ⟨by simp, rfl⟩
  have hk : k ≠ c.entries.key entry := by
    rintro rfl
    rcases hres with hin | ham
    . rw [hself] at hin
      cases hin
      exact hne rfl
    . have hnone := (h.apart _).resolve_left (by rw [hself]; exact Option.some_ne_none entry)
      rw [hnone] at ham
      cases ham
  unfold Pinned Resident TwoQCache.evictA1in freeEntry addGhost
  dsimp only
  rw [IntrusiveList.value_unlink, Function.update_of_ne hk, Slices.ref_decRef_of_ne hne]
  exact ⟨hres, rfl, hpin⟩

omit [DecidableEq Key] in
theorem itemSize_of_slices (hvalue : c'.entries.value = c.entries.value)
    (hsize : c'.slices.size = c.slices.size) : c'.itemSize = c.itemSize := by
  unfold itemSize Slices.getItemSize
  rw [hvalue, hsize]

theorem sizes_evictAm : (c.evictAm entry).sizes = c.sizes := by
  unfold sizes
  rw [itemSize_of_slices]
  . simp [evictAm, freeEntry]
  . simp [evictAm, freeEntry]

theorem sizes_evictA1in : (c.evictA1in entry).sizes = c.sizes := by
  unfold sizes
  rw [itemSize_of_slices]
  . simp [evictA1in, freeEntry, addGhost]
  . simp [evictA1in, freeEntry, addGhost]

omit [DecidableEq Key] in
/-- A new entry is counted with the size of its value, the others with the sizes they had. -/
theorem sizes_of_enter {slot : Nat}
    (hvalue : c'.entries.value = Function.update c.entries.value slot value)
    (hsize : c'.slices.size = c.slices.size) (hmem : slot ∉ cells) :
    c'.sizes cells = c.sizes cells ∧
      c'.sizes (cells ++ [slot]) = c.sizes cells + c.slices.getItemSize value := by
  have hcells : c'.sizes cells = c.sizes cells := by
    apply sizes_congr
    intro a ha
    have hne : a ≠ slot := by
      rintro rfl
      exact hmem ha
    unfold itemSize Slices.getItemSize
    rw [hvalue, hsize, Function.update_of_ne hne]
  refine ⟨hcells, ?_⟩
  rw [sizes_append, hcells, sizes_cons]
  unfold itemSize Slices.getItemSize
  rw [hvalue, hsize, Function.update_self]
  rfl

omit [DecidableEq Key] in
/-- The other entries of a new one are still in the cache. -/
theorem keeps_of_enter {slot : Nat} (h : c.Books a1in am ghosts) (hmem : slot ∉ a1in ++ am)
    (hvalue : c'.entries.value = Function.update c.entries.value slot value)
    (href : ∀ a, c.slices.ref a ≤ c'.slices.ref a)
    (hres : ∀ k e, c.Resident k e → c'.Resident k e) : c.Keeps c' := by
  intro k e hres' hpin
  have hlive : e ∈ a1in ++ am := by
    rw [List.mem_append]
    apply hres'.imp
    . intro hin
      exact ((h.inQueue.map_eq k e).mp hin).1
    . intro ham
      exact ((h.amQueue.map_eq k e).mp ham).1
  have hne : e ≠ slot := by
    rintro rfl
    exact hmem hlive
  have hsame : c'.entries.value e = c.entries.value e := by
    rw [hvalue, Function.update_of_ne hne]
  refine ⟨hres k e hres', hsame, ?_⟩
  unfold Pinned
  rw [hsame]
  exact Nat.lt_of_lt_of_le hpin (href _)

/-- What a key that is in none of the queues is put into. -/
theorem Books.add (h : c.Books a1in am ghosts) (value : Nat) (hsums : c.Sums a1in am [])
    (hin : c.a1inMap key = none) (ham : c.amMap key = none) : ∃ a1in' am' ghosts',
      (c.add key value).Books a1in' am' ghosts' ∧
      (c.add key value).Sums a1in' am' [] ∧ c.Keeps (c.add key value) ∧
      (c.add key value).capacity = c.capacity ∧
      (c.add key value).a1outSizeLimit = c.a1outSizeLimit := by
  obtain ⟨hsize, hinSize⟩ := hsums
  have hnotMem := h.entryPool.alloc_notMem c.entries key value
  have hin' : (c.entryPool.alloc c.entries key value).2.2 ∉ a1in := fun hmem =>
    hnotMem (List.mem_append_left _ hmem)
  have ham' : (c.entryPool.alloc c.entries key value).2.2 ∉ am := fun hmem =>
    hnotMem (List.mem_append_right _ hmem)
  have hcount : { c with size := c.size + c.slices.getItemSize value }.Books a1in am ghosts :=
    ⟨h.inQueue, h.amQueue, h.outQueue, h.entryPool, h.ghostPool, h.apart, h.ghost⟩
  have hnil : ∀ d : TwoQCache Key, d.sizes [] = 0 := fun _ => rfl
  rw [hnil] at hsize hinSize
  unfold TwoQCache.add
  dsimp only
  split
  next ghost hmap =>
    obtain ⟨hmem, hkey⟩ := (h.outQueue.map_eq key ghost).mp hmap
    obtain ⟨pre, post, rfl⟩ := List.append_of_mem hmem
    have hvalue : (({ c with size := c.size + c.slices.getItemSize value }.dropGhost key
        ghost).enterAm key value).entries.value = Function.update c.entries.value
          (c.entryPool.alloc c.entries key value).2.2 value := IntrusiveList.value_pushBack
    have hslices : (({ c with size := c.size + c.slices.getItemSize value }.dropGhost key
        ghost).enterAm key value).slices.size = c.slices.size := Slices.size_incRef
    have hsin := (sizes_of_enter hvalue hslices hin').1
    have hsam := (sizes_of_enter hvalue hslices ham').2
    refine ⟨a1in, _, _, (hcount.dropGhost hkey).enterAm hin ham (Function.update_self ..), ?_, ?_,
      rfl, rfl⟩
    . constructor
      . rw [hnil, hsin]
        refine Eq.trans ?_ (congrArg (c.sizes a1in + ·) hsam.symm)
        change c.size + c.slices.getItemSize value + 0 = _
        omega
      . rw [hnil, hsin]
        exact hinSize
    . apply keeps_of_enter h hnotMem hvalue
      . intro a
        exact Slices.ref_incRef
      . intro k e hres
        apply hres.imp id
        intro hk
        have hne : k ≠ key := by
          rintro rfl
          rw [ham] at hk
          cases hk
        exact (Function.update_of_ne hne ..).trans hk
  next hmap =>
    have hvalue : ({ c with size := c.size + c.slices.getItemSize value }.enterA1in key
        value).entries.value = Function.update c.entries.value
          (c.entryPool.alloc c.entries key value).2.2 value := IntrusiveList.value_pushBack
    have hslices : ({ c with size := c.size + c.slices.getItemSize value }.enterA1in key
        value).slices.size = c.slices.size := Slices.size_incRef
    have hsin := (sizes_of_enter hvalue hslices hin').2
    have hsam := (sizes_of_enter hvalue hslices ham').1
    refine ⟨_, am, ghosts, hcount.enterA1in hin ham hmap, ?_, ?_, rfl, rfl⟩
    . constructor
      . rw [hnil, hsam]
        refine Eq.trans ?_ (congrArg (· + c.sizes am) hsin.symm)
        change c.size + c.slices.getItemSize value + 0 = _
        omega
      . rw [hnil]
        refine Eq.trans ?_ hsin.symm
        change c.a1inCurrentSize + c.slices.getItemSize value + 0 = _
        omega
    . apply keeps_of_enter h hnotMem hvalue
      . intro a
        exact Slices.ref_incRef
      . intro k e hres
        apply hres.imp_left
        intro hk
        have hne : k ≠ key := by
          rintro rfl
          rw [hin] at hk
          cases hk
        exact (Function.update_of_ne hne ..).trans hk

omit [DecidableEq Key] in
/-- The entries that the first loop collects, and what it takes off. -/
theorem collect_spec (n targetSize : Nat) (h : Linked c.entries.next cells 0) (hnull : 0 ∉ cells) :
    ∃ ys, ys.Sublist cells ∧ (∀ y ∈ ys, c.canEvict y = true) ∧
      c.collect n (cells.headD 0) targetSize = (ys, { c with
        size := c.size - c.sizes ys, a1inCurrentSize := c.a1inCurrentSize - c.sizes ys }) := by
  induction n generalizing c cells targetSize with
  | zero => exact ⟨[], List.nil_sublist cells, by simp, rfl⟩
  | succ n ih =>
    unfold collect
    cases cells with
    | nil => exact ⟨[], List.Sublist.slnil, by simp, rfl⟩
    | cons e cells =>
      have hlinked := h.2
      have hnull' : 0 ∉ cells := fun hmem => hnull (List.mem_cons_of_mem e hmem)
      rw [List.headD_cons, h.1]
      split
      next => exact ⟨[], List.nil_sublist _, by simp, rfl⟩
      next =>
        split
        next hevict =>
          obtain ⟨ys, hsub, hall, heq⟩ := ih (c := { c with
            size := c.size - c.itemSize e, a1inCurrentSize := c.a1inCurrentSize - c.itemSize e })
            (targetSize - c.itemSize e) hlinked hnull'
          refine ⟨e :: ys, hsub.cons_cons e, ?_, ?_⟩
          . intro y hy
            rw [List.mem_cons] at hy
            rcases hy with rfl | hy
            . exact hevict
            . exact hall y hy
          . dsimp only
            rw [heq, sizes_cons, ← Nat.sub_sub, ← Nat.sub_sub]
            rfl
        next =>
          obtain ⟨ys, hsub, hall, heq⟩ := ih targetSize hlinked hnull'
          exact ⟨ys, hsub.cons e, hall, heq⟩

/-- What a part of `prune` preserves: the second queue is the one the last part works on. -/
structure Pruned (c c' : TwoQCache Key) : Prop where
  keeps : c.Keeps c'
  capacity : c'.capacity = c.capacity
  limit : c'.a1outSizeLimit = c.a1outSizeLimit

omit [DecidableEq Key] in
theorem Pruned.refl (c : TwoQCache Key) : c.Pruned c := ⟨Keeps.refl c, rfl, rfl⟩

omit [DecidableEq Key] in
theorem Pruned.trans (h : c.Pruned c') (h' : c'.Pruned c'') : c.Pruned c'' :=
  ⟨h.keeps.trans h'.keeps, h'.capacity.trans h.capacity, h'.limit.trans h.limit⟩

theorem evictA1in_all (h : c.Books a1in am ghosts) (hsums : c.Sums a1in am pending)
    (hsub : pending.Sublist a1in) (href : ∀ y ∈ pending, c.slices.ref (c.entries.value y) ≤ 1) :
    ∃ a1in' ghosts', (pending.foldl evictA1in c).Books a1in' am ghosts' ∧
      (pending.foldl evictA1in c).Sums a1in' am [] ∧ c.Pruned (pending.foldl evictA1in c) := by
  induction pending generalizing c a1in ghosts with
  | nil => exact ⟨a1in, ghosts, h, hsums, Pruned.refl c⟩
  | cons entry pending ih =>
    obtain ⟨pre, post, hsplit⟩ := List.append_of_mem (hsub.subset List.mem_cons_self)
    have hnodup := h.inQueue.list.nodup
    have hrest : pending.Sublist (pre ++ post) := by
      have herase := hsub.erase entry
      rw [List.erase_cons_head, hsplit, List.erase_append_right, List.erase_cons_head] at herase
      . exact herase
      . rw [hsplit, List.nodup_middle, List.nodup_cons] at hnodup
        exact fun hmem => hnodup.1 (List.mem_append_left _ hmem)
    subst hsplit
    have hentry := href entry List.mem_cons_self
    have hstep : c.Pruned (c.evictA1in entry) := ⟨h.keeps_evictA1in hentry, rfl, rfl⟩
    have hsums' : (c.evictA1in entry).Sums (pre ++ post) am pending := by
      obtain ⟨hsize, hin⟩ := hsums
      constructor
      . rw [sizes_evictA1in]
        change c.size + _ = _
        simp only [sizes_append, sizes_cons] at hsize ⊢
        omega
      . rw [sizes_evictA1in]
        change c.a1inCurrentSize + _ = _
        simp only [sizes_append, sizes_cons] at hin ⊢
        omega
    have href' : ∀ y ∈ pending,
        (c.evictA1in entry).slices.ref ((c.evictA1in entry).entries.value y) ≤ 1 := by
      intro y hy
      have hold := href y (List.mem_cons_of_mem entry hy)
      have hvalue : (c.evictA1in entry).entries.value = c.entries.value := by
        simp [TwoQCache.evictA1in, freeEntry, addGhost]
      rw [hvalue]
      exact Nat.le_trans Slices.ref_decRef hold
    rw [List.foldl_cons]
    obtain ⟨a1in', ghosts', hbooks, hsums', hpruned⟩ := ih h.evictA1in hsums' hrest href'
    exact ⟨a1in', ghosts', hbooks, hsums', hstep.trans hpruned⟩

theorem maintainA1inSize_spec (h : c.Books a1in am ghosts) (hsums : c.Sums a1in am []) :
    ∃ a1in' ghosts', c.maintainA1inSize.Books a1in' am ghosts' ∧
      c.maintainA1inSize.Sums a1in' am [] ∧ c.Pruned c.maintainA1inSize := by
  unfold maintainA1inSize
  split
  next => exact ⟨a1in, ghosts, h, hsums, Pruned.refl c⟩
  next =>
    have hlist := h.inQueue.list
    obtain ⟨ys, hsub, hall, heq⟩ := collect_spec (c := c) c.a1inList.size c.a1inCurrentSize
      hlist.forward.linked hlist.nonnull
    rw [hlist.forward.first_eq, heq]
    dsimp only
    have hle := sizes_sublist (c := c) hsub
    obtain ⟨hsize, hin⟩ := hsums
    have hnil : c.sizes [] = 0 := rfl
    rw [hnil] at hsize hin
    have hstep : c.Pruned { c with
        size := c.size - c.sizes ys, a1inCurrentSize := c.a1inCurrentSize - c.sizes ys } :=
      ⟨fun _ _ hres hpin => ⟨hres, rfl, hpin⟩, rfl, rfl⟩
    have hbooks : { c with
        size := c.size - c.sizes ys,
        a1inCurrentSize := c.a1inCurrentSize - c.sizes ys }.Books a1in am ghosts :=
      ⟨h.inQueue, h.amQueue, h.outQueue, h.entryPool, h.ghostPool, h.apart, h.ghost⟩
    have hsums : { c with
        size := c.size - c.sizes ys,
        a1inCurrentSize := c.a1inCurrentSize - c.sizes ys }.Sums a1in am ys := by
      constructor
      . change c.size - c.sizes ys + c.sizes ys = c.sizes a1in + c.sizes am
        omega
      . change c.a1inCurrentSize - c.sizes ys + c.sizes ys = c.sizes a1in
        omega
    obtain ⟨a1in', ghosts', hbooks', hsums', hpruned⟩ := evictA1in_all hbooks hsums hsub
      fun y hy => Slices.ref_of_canEvict (hall y hy)
    exact ⟨a1in', ghosts', hbooks', hsums', hstep.trans hpruned⟩

theorem maintainA1outSize_spec (n : Nat) (h : c.Books a1in am ghosts) (hsums : c.Sums a1in am [])
    (hn : ghosts.length ≤ n) : ∃ ghosts', (maintainA1outSize n c).Books a1in am ghosts' ∧
      (maintainA1outSize n c).Sums a1in am [] ∧ c.Pruned (maintainA1outSize n c) ∧
      ghosts'.length ≤ c.a1outSizeLimit := by
  induction n generalizing c ghosts with
  | zero => exact ⟨ghosts, h, hsums, Pruned.refl c, by omega⟩
  | succ n ih =>
    have hsize := h.outQueue.list.size_eq
    unfold maintainA1outSize
    split
    next hmore =>
      cases ghosts with
      | nil => exact absurd hsize hmore.2
      | cons ghost ghosts =>
        have hhead : c.a1outList.head = ghost := h.outQueue.list.forward.first_eq
        rw [hhead]
        dsimp only
        have hdrop : (c.dropGhost (c.ghosts.key ghost) ghost).Books a1in am ([] ++ ghosts) :=
          Books.dropGhost h rfl
        obtain ⟨ghosts', hbooks, hsums', hpruned, hlimit⟩ := ih hdrop ⟨hsums.size, hsums.a1in⟩
          (by simpa using hn)
        have hstep : c.Pruned (c.dropGhost (c.ghosts.key ghost) ghost) :=
          ⟨fun _ _ hres hpin => ⟨hres, rfl, hpin⟩, rfl, rfl⟩
        exact ⟨ghosts', hbooks, hsums', hstep.trans hpruned, hlimit⟩
    next hless =>
      refine ⟨ghosts, h, hsums, Pruned.refl c, ?_⟩
      omega

omit [DecidableEq Key] in
theorem findEvictable_spec {n : Nat} (h : Linked c.entries.next cells 0) (hnull : 0 ∉ cells)
    (hn : cells.length ≤ n) : match c.findEvictable n (cells.headD 0) with
      | some entry => entry ∈ cells ∧ c.canEvict entry = true
      | none => ∀ entry ∈ cells, c.canEvict entry = false := by
  induction n generalizing cells with
  | zero =>
    have hnil : cells = [] := List.length_eq_zero_iff.mp (by omega)
    subst hnil
    simp [findEvictable]
  | succ n ih =>
    unfold findEvictable
    cases cells with
    | nil => simp
    | cons e cells =>
      have he : e ≠ 0 := by
        rintro rfl
        exact hnull List.mem_cons_self
      have hrest := ih h.2 (fun hmem => hnull (List.mem_cons_of_mem e hmem)) (by simpa using hn)
      rw [List.headD_cons, if_neg he, h.1]
      by_cases hevict : c.canEvict e = true
      . rw [if_pos hevict]
        exact ⟨List.mem_cons_self, hevict⟩
      . rw [if_neg hevict]
        split
        next entry hfind =>
          rw [hfind] at hrest
          exact ⟨List.mem_cons_of_mem e hrest.1, hrest.2⟩
        next hfind =>
          rw [hfind] at hrest
          intro a ha
          rw [List.mem_cons] at ha
          rcases ha with rfl | ha
          . simpa using hevict
          . exact hrest a ha

theorem pruneAm_spec (n : Nat) (h : c.Books a1in am ghosts) (hsums : c.Sums a1in am [])
    (hn : am.length ≤ n) : ∃ am', (pruneAm n c).Books a1in am' ghosts ∧
      (pruneAm n c).Sums a1in am' [] ∧ c.Pruned (pruneAm n c) ∧
      ((pruneAm n c).size ≤ (pruneAm n c).capacity ∨
        ∀ entry ∈ am', (pruneAm n c).canEvict entry = false) := by
  induction n generalizing c am with
  | zero =>
    have hnil : am = [] := List.length_eq_zero_iff.mp (by omega)
    subst hnil
    exact ⟨[], h, hsums, Pruned.refl c, Or.inr (by simp)⟩
  | succ n ih =>
    have hlist := h.amQueue.list
    have hsize := hlist.size_eq
    unfold pruneAm
    split
    next hmore =>
      have hfind := findEvictable_spec hlist.forward.linked hlist.nonnull (Nat.le_of_eq hsize.symm)
      rw [hlist.forward.first_eq]
      split
      next entry heq =>
        rw [heq] at hfind
        obtain ⟨hmem, hevict⟩ := hfind
        obtain ⟨pre, post, rfl⟩ := List.append_of_mem hmem
        have href := Slices.ref_of_canEvict hevict
        have hstep : c.Pruned (c.evictAm entry) := ⟨h.keeps_evictAm href, rfl, rfl⟩
        have hsums' : (c.evictAm entry).Sums a1in (pre ++ post) [] := by
          obtain ⟨hsum, hin⟩ := hsums
          constructor
          . rw [sizes_evictAm]
            change c.size - c.itemSize entry + _ = _
            simp only [sizes_append, sizes_cons] at hsum ⊢
            omega
          . rw [sizes_evictAm]
            exact hin
        have hlength : (pre ++ post).length ≤ n := by
          simp only [List.length_append, List.length_cons] at hn ⊢
          omega
        obtain ⟨am', hbooks, hsums', hpruned, hdone⟩ := ih h.evictAm hsums' hlength
        exact ⟨am', hbooks, hsums', hstep.trans hpruned, hdone⟩
      next heq =>
        rw [heq] at hfind
        exact ⟨am, h, hsums, Pruned.refl c, Or.inr hfind⟩
    next hless =>
      refine ⟨am, h, hsums, Pruned.refl c, ?_⟩
      by_cases hcap : c.size ≤ c.capacity
      . exact Or.inl hcap
      . right
        have hnil : am = [] := by
          apply List.length_eq_zero_iff.mp
          omega
        simp [hnil]

theorem prune_spec (h : c.Books a1in am ghosts) (hsums : c.Sums a1in am []) :
    ∃ a1in' am' ghosts', c.prune.Books a1in' am' ghosts' ∧ c.prune.Sums a1in' am' [] ∧
      c.Pruned c.prune ∧ ghosts'.length ≤ c.a1outSizeLimit ∧
      (c.prune.size ≤ c.prune.capacity ∨ ∀ entry ∈ am', c.prune.canEvict entry = false) := by
  unfold prune
  dsimp only
  obtain ⟨a1in', ghosts', hbooks, hsums', hpruned⟩ := maintainA1inSize_spec h hsums
  obtain ⟨ghosts'', hbooks', hsums'', hpruned', hlimit⟩ := maintainA1outSize_spec
    c.maintainA1inSize.a1outList.size hbooks hsums' (Nat.le_of_eq hbooks.outQueue.list.size_eq.symm)
  obtain ⟨am', hbooks'', hsums''', hpruned'', hdone⟩ := pruneAm_spec _ hbooks' hsums''
    (Nat.le_of_eq hbooks'.amQueue.list.size_eq.symm)
  rw [hpruned.limit] at hlimit
  exact ⟨a1in', am', ghosts'', hbooks'', hsums''', (hpruned.trans hpruned').trans hpruned'', hlimit,
    hdone⟩

/-- Nothing more can be evicted from the second queue, if the cache holds too much. -/
def Full (c : TwoQCache Key) : Prop :=
  c.size ≤ c.capacity ∨ ∀ key entry, c.amMap key = some entry → c.canEvict entry = false

/-- The invariant of the cache. -/
structure Inv (c : TwoQCache Key) (a1in am ghosts : List Nat) : Prop where
  books : c.Books a1in am ghosts
  sums : c.Sums a1in am []
  limit : ghosts.length ≤ c.a1outSizeLimit

/-- The key is in none of the queues. -/
def Absent (c : TwoQCache Key) (key : Key) : Prop := c.a1inMap key = none ∧ c.amMap key = none

namespace Inv

theorem get (h : c.Inv a1in am ghosts) (key : Key) :
    ∃ a1in' am', (c.get key).1.Inv a1in' am' ghosts := by
  have hsizes : (c.get key).1.sizes = c.sizes := sizes_get
  obtain ⟨hsize, hin⟩ := h.sums
  have hnil : c.sizes [] = 0 := rfl
  rw [hnil] at hsize hin
  cases hmap : c.a1inMap key with
  | some entry =>
    obtain ⟨hmem, hkey⟩ := (h.books.inQueue.map_eq key entry).mp hmap
    obtain ⟨pre, post, rfl⟩ := List.append_of_mem hmem
    have hbooks := h.books.promote hkey hmap
    refine ⟨_, _, hbooks, ?_, ?_⟩
    . rw [sizes_append, sizes_cons] at hsize hin
      constructor
      . rw [hsizes, hnil, sizes_append, sizes_append, sizes_cons, hnil]
        simp only [TwoQCache.get, hmap]
        omega
      . rw [hsizes, hnil, sizes_append]
        simp only [TwoQCache.get, hmap]
        omega
    . simp only [TwoQCache.get, hmap]
      exact h.limit
  | none =>
    cases hmap' : c.amMap key with
    | some entry =>
      obtain ⟨hmem, hkey⟩ := (h.books.amQueue.map_eq key entry).mp hmap'
      obtain ⟨pre, post, rfl⟩ := List.append_of_mem hmem
      have hbooks := h.books.refresh hmap'
      refine ⟨_, _, hbooks, ?_, ?_⟩
      . rw [sizes_append c pre, sizes_cons] at hsize
        constructor
        . rw [hsizes, hnil, sizes_append, sizes_append, sizes_cons, hnil]
          simp only [TwoQCache.get, hmap, hmap']
          omega
        . rw [hsizes, hnil]
          simp only [TwoQCache.get, hmap, hmap']
          exact hin
      . simp only [TwoQCache.get, hmap, hmap']
        exact h.limit
    | none =>
      simp only [TwoQCache.get, hmap, hmap']
      exact ⟨a1in, am, h⟩

theorem put_resident (hres : ¬c.Absent key) : c.put key value = c := by
  unfold TwoQCache.put
  rw [if_pos]
  rw [← not_not (a := _ ∨ _), not_or]
  rw [Option.not_isSome_iff_eq_none, Option.not_isSome_iff_eq_none]
  exact hres

theorem put_absent (habsent : c.Absent key) : c.put key value = (c.add key value).prune := by
  unfold TwoQCache.put
  rw [habsent.1, habsent.2]
  simp

theorem put (h : c.Inv a1in am ghosts) :
    (∃ a1in' am' ghosts', (c.put key value).Inv a1in' am' ghosts') ∧ c.Keeps (c.put key value) ∧
      (c.Absent key → (c.add key value).Keeps (c.put key value) ∧ (c.put key value).Full) := by
  by_cases habsent : c.Absent key
  . rw [put_absent habsent]
    obtain ⟨a1in', am', ghosts', hbooks, hsums, hkeeps, hcapacity, hlimit⟩ :=
      h.books.add value h.sums habsent.1 habsent.2
    obtain ⟨a1in'', am'', ghosts'', hbooks', hsums', hpruned, hlength, hdone⟩ :=
      prune_spec hbooks hsums
    rw [← hpruned.limit] at hlength
    refine ⟨⟨_, _, _, hbooks', hsums', hlength⟩, hkeeps.trans hpruned.keeps, ?_⟩
    intro _
    refine ⟨hpruned.keeps, hdone.imp_right ?_⟩
    intro hall k entry hmap
    exact hall entry ((hbooks'.amQueue.map_eq k entry).mp hmap).1
  . rw [put_resident habsent]
    exact ⟨⟨a1in, am, ghosts, h⟩, Keeps.refl c, fun hyes => absurd hyes habsent⟩

theorem step (h : c.Inv a1in am ghosts) (op : CacheOp Key) :
    ∃ a1in' am' ghosts', (c.step op).Inv a1in' am' ghosts' := by
  cases op with
  | get key =>
    obtain ⟨a1in', am', h'⟩ := h.get key
    exact ⟨a1in', am', ghosts, h'⟩
  | put key value => exact h.put.1
  | recount ref =>
    obtain ⟨hbooks, hsums, hlimit⟩ := h
    exact ⟨a1in, am, ghosts, ⟨hbooks.inQueue, hbooks.amQueue, hbooks.outQueue, hbooks.entryPool,
      hbooks.ghostPool, hbooks.apart, hbooks.ghost⟩, ⟨hsums.size, hsums.a1in⟩, hlimit⟩

theorem run (h : c.Inv a1in am ghosts) (ops : List (CacheOp Key)) :
    ∃ a1in' am' ghosts', (c.run ops).Inv a1in' am' ghosts' := by
  induction ops generalizing c a1in am ghosts with
  | nil => exact ⟨a1in, am, ghosts, h⟩
  | cons op ops ih =>
    obtain ⟨a1in', am', ghosts', h'⟩ := h.step op
    exact ih h'

/-- No step takes a pinned entry out of the cache. -/
theorem pinned_step (h : c.Inv a1in am ghosts) (op : CacheOp Key) (hres : c.Resident key entry)
    (hpin : c.Pinned entry) : (c.step op).Resident key entry := by
  cases op with
  | get k => exact (h.books.keeps_get key entry hres hpin).1
  | put k value => exact (h.put.2.1 key entry hres hpin).1
  | recount ref => exact hres

end Inv

omit [DecidableEq Key] in
theorem inv_init (capacity a1inSizeLimit a1outItems : Nat) (entries ghosts : Entries Key)
    (slices : Slices) :
    (init capacity a1inSizeLimit a1outItems entries ghosts slices).Inv [] [] [] :=
  ⟨Books.init .., ⟨rfl, rfl⟩, Nat.zero_le _⟩

/-- In every run the queues, the maps and the counted sizes agree, the ghosts are other keys and not
too many, no pinned entry is evicted, and a new entry makes room for itself as far as it can. -/
theorem cache_run (capacity a1inSizeLimit a1outItems : Nat) (entries ghosts : Entries Key)
    (slices : Slices) (ops : List (CacheOp Key)) :
    let c := (init capacity a1inSizeLimit a1outItems entries ghosts slices).run ops
    (∃ a1in am ghosts, c.Books a1in am ghosts ∧ c.size = c.sizes a1in + c.sizes am ∧
      c.a1inCurrentSize = c.sizes a1in ∧ (ghosts.map c.ghosts.key).Nodup ∧
      ghosts.length ≤ c.a1outSizeLimit) ∧
    (∀ op key entry, c.Resident key entry → c.Pinned entry → (c.step op).Resident key entry) ∧
    ∀ key value, c.Absent key → (c.put key value).Full ∧
      ∀ key' entry, (c.add key value).Resident key' entry → (c.add key value).Pinned entry →
        (c.put key value).Resident key' entry := by
  intro c
  obtain ⟨a1in, am, ghosts', h⟩ :=
    (inv_init capacity a1inSizeLimit a1outItems entries ghosts slices).run ops
  refine ⟨⟨a1in, am, ghosts', h.books, h.sums.size, h.sums.a1in, ?_, h.limit⟩, ?_, ?_⟩
  . exact h.books.outQueue.keys_nodup
  . intro op key entry
    exact h.pinned_step op
  . intro key value habsent
    obtain ⟨hkeeps, hfull⟩ := h.put.2.2 habsent
    refine ⟨hfull, ?_⟩
    intro key' entry hres hpin
    exact (hkeeps key' entry hres hpin).1

/-- A `put` of a key that is in the cache does not prune: an entry that is not pinned any more
stays, though the cache holds too much. -/
theorem full_put_resident : ¬∀ ops : List (CacheOp Nat), ∀ key value,
    (((init 0 0 1 ⟨id, id, id, id⟩ ⟨id, id, id, id⟩ ⟨fun _ => 1, fun _ => 1⟩).run ops).put key
      value).Full := by
  intro h
  have hfull := h [.put 1 1, .get 1, .recount fun _ => 1] 1 2
  rcases hfull with hsize | hall
  . revert hsize
    decide
  . have hevict := hall 1 64 (by decide)
    revert hevict
    decide

end TwoQCache
end Leaves
