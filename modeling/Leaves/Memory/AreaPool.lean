import Leaves.Memory.Areas

/-!
What the operations on the pool do to its lists: they hold the free areas, the areas of the pool and
those in use tile the file.
-/

namespace Leaves

namespace Areas

variable {m : Areas} {a s n : Nat}

@[simp]
theorem next_init : (m.init a s n).next = Function.update m.next a n := by
  funext b
  by_cases h : b = a <;> simp [next, init, h]

@[simp]
theorem size_init : (m.init a s n).size = Function.update m.size a (s % 2 ^ 32) := by
  funext b
  by_cases h : b = a <;> simp [size, init, h]

@[simp]
theorem next_setNext : (m.setNext a n).next = Function.update m.next a n := by
  funext b
  by_cases h : b = a <;> simp [next, setNext, h]

@[simp]
theorem size_setNext : (m.setNext a n).size = m.size := by
  funext b
  by_cases h : b = a <;> simp [size, setNext, h]

@[simp]
theorem next_setSize : (m.setSize a s).next = m.next := by
  funext b
  by_cases h : b = a <;> simp [next, setSize, h]

@[simp]
theorem size_setSize : (m.setSize a s).size = Function.update m.size a (s % 2 ^ 32) := by
  funext b
  by_cases h : b = a <;> simp [size, setSize, h]

theorem init_of_ne {b : Nat} (h : b ≠ a) : (m.init a s n).head b = m.head b :=
  Function.update_of_ne h _ _

theorem setNext_of_ne {b : Nat} (h : b ≠ a) : (m.setNext a n).head b = m.head b :=
  Function.update_of_ne h _ _

theorem setSize_of_ne {b : Nat} (h : b ≠ a) : (m.setSize a s).head b = m.head b :=
  Function.update_of_ne h _ _

/-- The size is one an area can have. -/
def Sized (m : Areas) (a : Nat) : Prop := 0 < m.size a ∧ AREA_SIZE ∣ m.size a ∧ m.size a < 2 ^ 32

theorem Sized.of_eq (h : m.size a = s) (hpos : 0 < s) (hdvd : AREA_SIZE ∣ s) (hlt : s < 2 ^ 32) :
    m.Sized a := by
  subst h
  exact ⟨hpos, hdvd, hlt⟩

theorem Sized.congr {m' : Areas} (h : m.Sized a) (heq : m'.size a = m.size a) : m'.Sized a := by
  unfold Sized
  rw [heq]
  exact h

theorem map_range_congr {m' : Areas} {l : List Nat} (h : ∀ a ∈ l, m'.size a = m.size a) :
    l.map m'.range = l.map m.range := by
  apply List.map_congr_left
  intro a ha
  rw [range, range, h a ha]

end Areas

namespace AreaList

variable {l l' : AreaList} {m m' : Areas} {xs ys : List Nat} {a c size : Nat}

@[simp]
theorem getHead_atomicSwitch (l : AreaList) (h t : Nat) : (l.atomicSwitch h t).getHead = h := by
  simp [getHead, atomicSwitch]

@[simp]
theorem getTail_atomicSwitch (l : AreaList) (h t : Nat) : (l.atomicSwitch h t).getTail = t := by
  simp [getTail, atomicSwitch]

/-- The list is the chain of these areas. -/
def Holds (l : AreaList) (m : Areas) (xs : List Nat) : Prop :=
  Chain m.next 0 l.getHead l.getTail xs

theorem pop_spec (h : l.Holds m xs) (hpop : l.pop m = some (l', a)) :
    ∃ ys, xs = a :: ys ∧ (0 ∉ ys → l'.Holds m ys) := by
  unfold pop at hpop
  split at hpop
  next => cases hpop
  next hhead =>
    simp only [Option.some.injEq, Prod.mk.injEq] at hpop
    obtain ⟨rfl, rfl⟩ := hpop
    cases xs with
    | nil => exact absurd h.first_eq hhead
    | cons b ys =>
      obtain ⟨hfirst, hlinked, hnext, hlast⟩ := Chain.pop h
      rw [hfirst]
      refine ⟨ys, rfl, ?_⟩
      intro hnull
      unfold Holds
      rw [getHead_atomicSwitch, getTail_atomicSwitch]
      refine ⟨hnext, ?_, hlinked⟩
      rw [hnext]
      cases ys with
      | nil => rfl
      | cons c ys =>
        have hne : c ≠ 0 := by
          rintro rfl
          exact hnull List.mem_cons_self
        rw [List.headD_cons, if_neg hne]
        exact hlast (by simp)

theorem push_spec (h : l.Holds m xs) (hmem : a ∉ xs) (hnull : 0 ∉ xs) :
    (l.push m a).1.Holds (l.push m a).2 (a :: xs) := by
  unfold Holds push
  rw [getHead_atomicSwitch, getTail_atomicSwitch, Areas.next_init]
  exact Chain.push h hmem hnull

theorem add_spec {first last : Nat} (h : l.Holds m xs) (h' : Chain m.next 0 first last ys)
    (hnodup : (xs ++ ys).Nodup) (hnull : 0 ∉ xs ++ ys) :
    (l.add m first last).1.Holds (l.add m first last).2 (xs ++ ys) := by
  simp only [List.mem_append, not_or] at hnull
  unfold Holds at h ⊢
  unfold add
  split
  next hfirst =>
    have hnil := (h'.first_null hnull.2).mp hfirst
    subst hnil
    simpa using h
  next hfirst =>
    have hne : ys ≠ [] := by
      intro hnil
      exact hfirst ((h'.first_null hnull.2).mpr hnil)
    split
    next hhead =>
      have hnil := (h.first_null hnull.1).mp hhead
      subst hnil
      simpa using h'
    next hhead =>
      have hxs : xs ≠ [] := by
        intro hnil
        exact hhead ((h.first_null hnull.1).mpr hnil)
      have hsplit := List.dropLast_append_getLast hxs
      generalize xs.dropLast = pre at hsplit
      generalize xs.getLast hxs = a at hsplit
      subst hsplit
      have htail : l.getTail = a := by
        rw [h.last_eq]
        simp
      simp only [getHead_atomicSwitch, getTail_atomicSwitch, Areas.next_setNext, htail]
      rw [List.nodup_append] at hnodup
      obtain ⟨hnodup, -, hdisj⟩ := hnodup
      apply Chain.join h h' _ _ hne
      . intro hmem
        rw [List.nodup_append] at hnodup
        exact hnodup.2.2 a hmem a (by simp) rfl
      . intro hmem
        exact hdisj a (by simp) a hmem rfl

theorem size_add (l : AreaList) (m : Areas) (first last : Nat) :
    (l.add m first last).2.size = m.size := by
  unfold add
  split
  . rfl
  . split
    . rfl
    . simp

theorem add_of_notMem {first last b : Nat} (h : l.Holds m xs) (hnull : 0 ∉ xs) (hb : b ∉ xs) :
    (l.add m first last).2.head b = m.head b := by
  unfold add
  split
  . rfl
  . split
    . rfl
    next hhead =>
      apply Areas.setNext_of_ne
      rintro rfl
      apply hb
      apply Chain.last_mem h
      intro hnil
      exact hhead ((h.first_null hnull).mpr hnil)

theorem find_spec {n prev p : Nat} (h : Linked m.next xs 0)
    (hfind : find m size n prev (xs.headD 0) = some (p, c)) :
    ∃ pre post, xs = pre ++ c :: post ∧ p = pre.getLastD prev ∧ size ≤ m.size c := by
  induction n generalizing xs prev with
  | zero => cases hfind
  | succ n ih =>
    unfold find at hfind
    split at hfind
    next => cases hfind
    next hcurr =>
      cases xs with
      | nil => exact absurd rfl hcurr
      | cons b xs =>
        rw [List.headD_cons] at hfind
        split at hfind
        next hle =>
          cases hfind
          exact ⟨[], xs, rfl, rfl, hle⟩
        next =>
          rw [h.1] at hfind
          obtain ⟨pre, post, rfl, rfl, hle⟩ := ih h.2 hfind
          refine ⟨b :: pre, post, rfl, ?_, hle⟩
          rw [List.getLastD_cons]

/-- What passing an area over does to the chain. -/
theorem unlink_spec {pre post : List Nat} (h : l.Holds m (pre ++ c :: post))
    (hnodup : (pre ++ c :: post).Nodup) (hnull : 0 ∉ pre ++ c :: post) :
    Chain (l.unlink m (pre.getLastD 0) c).1.next 0 (l.unlink m (pre.getLastD 0) c).2.1
      (l.unlink m (pre.getLastD 0) c).2.2 (pre ++ post) := by
  have hchain := Chain.unlink h hnodup fun hmem => hnull (List.mem_append_left _ hmem)
  unfold unlink
  by_cases hprev : pre.getLastD 0 = 0
  . rw [if_pos hprev, if_pos hprev, hprev] at hchain
    rw [if_pos hprev]
    exact hchain
  . rw [if_neg hprev, if_neg hprev] at hchain
    rw [if_neg hprev, Areas.next_setNext]
    exact hchain

theorem size_unlink (l : AreaList) (m : Areas) (prev curr : Nat) :
    (l.unlink m prev curr).1.size = m.size := by
  unfold unlink
  split
  . rfl
  . simp

theorem unlink_of_notMem {prev b : Nat} (h : prev = 0 ∨ b ≠ prev) :
    (l.unlink m prev c).1.head b = m.head b := by
  unfold unlink
  split
  . rfl
  next hprev =>
    apply Areas.setNext_of_ne
    exact h.resolve_left hprev

theorem splitRest_of_eq {newHead : Nat} (h : m.size c = size) :
    splitRest m size c newHead = (m, newHead) := by
  unfold splitRest
  rw [if_neg (by omega)]

theorem splitRest_of_lt {newHead : Nat} (h : size < m.size c) :
    splitRest m size c newHead =
      ((m.init (c + size) (m.size c - size) newHead).setSize c size, c + size) := by
  unfold splitRest
  rw [if_pos h]

theorem splitRest_of_ne {newHead b : Nat} (hc : b ≠ c) (hrest : size < m.size c → b ≠ c + size) :
    (splitRest m size c newHead).1.head b = m.head b := by
  unfold splitRest
  split
  next hlt => rw [Areas.setSize_of_ne hc, Areas.init_of_ne (hrest hlt)]
  next => rfl

/-- The tail `find_and_remove` writes in the end. -/
theorem Holds.of_switch {newHead newTail : Nat} (h : Chain m.next 0 newHead newTail xs)
    (hnull : 0 ∉ xs) :
    (l.atomicSwitch newHead (if newTail = 0 then newHead else newTail)).Holds m xs := by
  unfold Holds
  rw [getHead_atomicSwitch, getTail_atomicSwitch]
  split
  next htail =>
    have hnil := (h.last_null hnull).mp htail
    subst hnil
    rw [h.first_eq]
    exact Chain.nil
  next => exact h

/-- An area is taken out of a list, and what it has too much is put before the others. -/
theorem findAndRemove_spec (h : l.Holds m xs) (hnodup : xs.Nodup) (hnull : 0 ∉ xs)
    (hfind : l.findAndRemove m size = some (l', m', c)) :
    ∃ pre post, xs = pre ++ c :: post ∧ size ≤ m.size c ∧
      (∀ b, b ∉ xs → (size < m.size c → b ≠ c + size) → m'.head b = m.head b) ∧
      (m.size c = size → l'.Holds m' (pre ++ post) ∧ m'.size = m.size) ∧
      (size < m.size c → c + size ∉ xs → c + size ≠ 0 →
        l'.Holds m' ((c + size) :: (pre ++ post)) ∧
        m'.size = Function.update (Function.update m.size (c + size)
          ((m.size c - size) % 2 ^ 32)) c (size % 2 ^ 32)) := by
  unfold findAndRemove at hfind
  split at hfind
  next => cases hfind
  next prev curr heq =>
    rw [h.first_eq] at heq
    obtain ⟨pre, post, rfl, rfl, hle⟩ := find_spec h.linked heq
    simp only [Option.some.injEq, Prod.mk.injEq] at hfind
    obtain ⟨rfl, rfl, rfl⟩ := hfind
    have hchain := unlink_spec h hnodup hnull
    have hsize := size_unlink l m (pre.getLastD 0) curr
    have hsub : ∀ b, b ∈ pre ++ post → b ∈ pre ++ curr :: post := by
      intro b hb
      simp only [List.mem_append, List.mem_cons] at hb ⊢
      tauto
    refine ⟨pre, post, rfl, hle, ?_, ?_, ?_⟩
    . intro b hb hrest
      rw [splitRest_of_ne _ (by rwa [hsize])]
      . apply unlink_of_notMem
        rcases List.eq_nil_or_concat' pre with rfl | ⟨pre, p, rfl⟩
        . exact Or.inl rfl
        . right
          rintro rfl
          simp at hb
      . rintro rfl
        simp at hb
    . intro heq
      rw [splitRest_of_eq (by rw [hsize, heq])]
      exact ⟨Holds.of_switch hchain fun hmem => hnull (hsub 0 hmem), hsize⟩
    . intro hlt hfresh hpos
      rw [splitRest_of_lt (by rw [hsize]; exact hlt)]
      have hpush := hchain.push (fun hmem => hfresh (hsub _ hmem)) fun hmem => hnull (hsub 0 hmem)
      simp only
      constructor
      . unfold Holds
        rw [getHead_atomicSwitch, getTail_atomicSwitch, Areas.next_setSize, Areas.next_init]
        exact hpush
      . rw [Areas.size_setSize, Areas.size_init, hsize]

end AreaList

namespace AreaFile

/-- The lists of the pool hold these areas. With the used ones they tile the file behind the area of
the file header. -/
structure Holds (f : AreaFile) (singles multis used : List Nat) : Prop where
  single : f.singleAreas.Holds f.areas singles
  multi : f.multiAreas.Holds f.areas multis
  tiles : Range.Tiles ((singles ++ multis ++ used).map f.areas.range)
    [⟨AREA_SIZE, f.fileSize - AREA_SIZE⟩]
  sized : ∀ a ∈ singles ++ multis ++ used, f.areas.Sized a
  ones : ∀ a ∈ singles, f.areas.size a = AREA_SIZE
  start : AREA_SIZE ≤ f.fileSize
  whole : AREA_SIZE ∣ f.fileSize

namespace Holds

variable {f f' : AreaFile} {singles multis used used' l : List Nat} {a b size : Nat}

theorem perm (h : f.Holds singles multis used) (hperm : used'.Perm used) :
    f.Holds singles multis used' := by
  have hall : (singles ++ multis ++ used').Perm (singles ++ multis ++ used) := hperm.append_left _
  exact ⟨h.single, h.multi, h.tiles.perm (hall.map _), fun a ha => h.sized a (hall.mem_iff.mp ha),
    h.ones, h.start, h.whole⟩

/-- An area lies between the file header and the end of the file. -/
theorem inside (h : f.Holds singles multis used) (ha : a ∈ singles ++ multis ++ used) :
    AREA_SIZE ≤ a ∧ a + f.areas.size a ≤ f.fileSize := by
  have hsized := (h.sized a ha).1
  have hin : ∀ x, (f.areas.range a).Has x → AREA_SIZE ≤ x ∧ x < f.fileSize := by
    intro x hx
    obtain ⟨r, hr, hrx⟩ := (h.tiles.exists_iff x).mp ⟨_, List.mem_map_of_mem ha, hx⟩
    rw [List.mem_singleton] at hr
    subst hr
    have hstart := h.start
    unfold Range.Has at hrx
    dsimp only at hrx
    omega
  have hfirst := hin a
  have hlast := hin (a + f.areas.size a - 1)
  unfold Range.Has Areas.range at hfirst hlast
  dsimp only at hfirst hlast
  omega

theorem null_notMem (h : f.Holds singles multis used) : 0 ∉ singles ++ multis ++ used := by
  intro hmem
  have hle := (h.inside hmem).1
  unfold AREA_SIZE at hle
  omega

theorem pairwise (h : f.Holds singles multis used) :
    (singles ++ multis ++ used).Pairwise fun a b => (f.areas.range a).Apart (f.areas.range b) :=
  List.pairwise_map.mp h.tiles.pairwise

theorem nodup (h : f.Holds singles multis used) : (singles ++ multis ++ used).Nodup := by
  apply h.pairwise.imp_of_mem
  rintro a b ha - hapart rfl
  have hpos := (h.sized a ha).1
  apply hapart a <;> (unfold Range.Has Areas.range; dsimp only; omega)

/-- Within an area no other one starts. -/
theorem notMem_within (h : f.Holds singles multis used) (ha : a ∈ singles ++ multis ++ used)
    (hpos : 0 < size) (hlt : size < f.areas.size a) : a + size ∉ singles ++ multis ++ used := by
  intro hmem
  have hsized := (h.sized _ hmem).1
  have heq := h.tiles.eq_of_has (List.mem_map_of_mem ha) (List.mem_map_of_mem hmem)
    (x := a + size) (by unfold Range.Has Areas.range; dsimp only; omega)
    (by unfold Range.Has Areas.range; dsimp only; omega)
  have hstart := congrArg Range.start heq
  unfold Areas.range at hstart
  dsimp only at hstart
  omega

/-- The link of an area in use is not the pool's. -/
theorem setNext (h : f.Holds singles multis used) (ha : a ∉ singles ++ multis) (b : Nat) :
    Holds { f with areas := f.areas.setNext a b } singles multis used := by
  have hsize : (f.areas.setNext a b).size = f.areas.size := Areas.size_setNext
  simp only [List.mem_append, not_or] at ha
  constructor
  . unfold AreaList.Holds
    rw [Areas.next_setNext]
    exact Chain.update h.single ha.1 b
  . unfold AreaList.Holds
    rw [Areas.next_setNext]
    exact Chain.update h.multi ha.2 b
  . rw [Areas.map_range_congr fun a _ => congrFun hsize a]
    exact h.tiles
  . exact fun c hc => (h.sized c hc).congr (congrFun hsize c)
  . intro c hc
    rw [hsize]
    exact h.ones c hc
  . exact h.start
  . exact h.whole

/-- An area of the single list goes into use. -/
theorem pop (h : f.Holds (a :: singles) multis used) {l : AreaList}
    (hl : l.Holds f.areas singles) :
    Holds { f with singleAreas := l } singles multis (a :: used) := by
  have hall : (singles ++ multis ++ a :: used).Perm (a :: singles ++ multis ++ used) :=
    List.perm_middle
  exact ⟨hl, h.multi, h.tiles.perm (hall.map _), fun b hb => h.sized b (hall.mem_iff.mp hb),
    fun b hb => h.ones b (List.mem_cons_of_mem a hb), h.start, h.whole⟩

/-- An area of the multi list goes into use, what it has too much stays in the list. -/
theorem take (h : f.Holds singles multis used) {l : AreaList} {m : Areas} (hpos : 0 < size)
    (hdvd : AREA_SIZE ∣ size)
    (htake : f.multiAreas.findAndRemove f.areas size = some (l, m, a)) :
    ∃ multis', Holds { f with multiAreas := l, areas := m } singles multis' (a :: used) ∧
      m.size a = size ∧ a ∈ multis ∧
      ∀ b ∈ used, m.head b = f.areas.head b := by
  have hnodup := h.nodup
  have hnull := h.null_notMem
  have hnodup' : multis.Nodup := (List.nodup_append.mp (List.nodup_append.mp hnodup).1).2.1
  have hnull' : 0 ∉ multis := by
    intro hmem
    apply hnull
    simp [hmem]
  obtain ⟨pre, post, rfl, hle, hframe, heq, hlt⟩ :=
    AreaList.findAndRemove_spec h.multi hnodup' hnull' htake
  have ha : a ∈ singles ++ (pre ++ a :: post) ++ used := by simp
  have hrest : ∀ b ∈ singles ++ (pre ++ a :: post) ++ used,
      size < f.areas.size a → b ≠ a + size := by
    rintro b hb hlt rfl
    exact h.notMem_within ha hpos hlt hb
  have hsingles : ∀ b ∈ singles, m.head b = f.areas.head b := by
    intro b hb
    apply hframe b _ (hrest b (by simp [hb]))
    intro hmem
    exact (List.nodup_append.mp (List.nodup_append.mp hnodup).1).2.2 b hb b hmem rfl
  have hused : ∀ b ∈ used, m.head b = f.areas.head b := by
    intro b hb
    apply hframe b _ (hrest b (by simp [hb]))
    intro hmem
    exact (List.nodup_append.mp hnodup).2.2 b (by simp [hmem]) b hb rfl
  have hsingle : f.singleAreas.Holds m singles := by
    apply h.single.congr
    intro b hb
    unfold Areas.next
    rw [hsingles b hb]
  have hones : ∀ b ∈ singles, m.size b = AREA_SIZE := by
    intro b hb
    rw [← h.ones b hb]
    unfold Areas.size
    rw [hsingles b hb]
  have hperm : (singles ++ (pre ++ post) ++ a :: used).Perm
      (singles ++ (pre ++ a :: post) ++ used) := by
    rw [List.perm_iff_count]
    intro b
    simp only [List.count_append, List.count_cons]
    omega
  rcases hle.eq_or_lt with hsize | hsize
  . obtain ⟨hl, hm⟩ := heq hsize.symm
    refine ⟨pre ++ post, ?_, ?_, by simp, hused⟩
    . refine ⟨hsingle, hl, ?_, ?_, hones, h.start, h.whole⟩
      . rw [Areas.map_range_congr fun b _ => congrFun hm b]
        exact h.tiles.perm (hperm.map _)
      . intro b hb
        exact (h.sized b (hperm.mem_iff.mp hb)).congr (congrFun hm b)
    . rw [hm, hsize]
  . have hmem := h.notMem_within ha hpos hsize
    obtain ⟨hl, hm⟩ := hlt hsize
      (fun hmem' => hmem (List.mem_append_left _ (List.mem_append_right _ hmem'))) (by omega)
    have hsized := h.sized a ha
    have hperm' : (singles ++ (pre ++ a :: post) ++ used).Perm
        (a :: (singles ++ (pre ++ post) ++ used)) := by
      rw [List.perm_iff_count]
      intro b
      simp only [List.count_append, List.count_cons]
      omega
    have hcut : (singles ++ (a + size) :: (pre ++ post) ++ a :: used).Perm
        (a :: (a + size) :: (singles ++ (pre ++ post) ++ used)) := by
      rw [List.perm_iff_count]
      intro b
      simp only [List.count_append, List.count_cons]
      omega
    have hself : m.size a = size := by
      rw [hm, Function.update_self, Nat.mod_eq_of_lt (hsize.trans hsized.2.2)]
    have hover : m.size (a + size) = f.areas.size a - size := by
      rw [hm, Function.update_of_ne (by omega), Function.update_self, Nat.mod_eq_of_lt]
      have := hsized.2.2
      omega
    have hothers : ∀ b ∈ singles ++ (pre ++ post) ++ used, m.size b = f.areas.size b := by
      intro b hb
      have hmem' := hperm'.mem_iff.mpr (List.mem_cons_of_mem a hb)
      rw [hm, Function.update_of_ne, Function.update_of_ne (hrest b hmem' hsize)]
      rintro rfl
      exact (List.nodup_cons.mp (hperm'.nodup_iff.mp hnodup)).1 hb
    refine ⟨(a + size) :: (pre ++ post), ?_, hself, by simp, hused⟩
    refine ⟨hsingle, hl, ?_, ?_, hones, h.start, h.whole⟩
    . apply h.tiles.of_owners
      intro x
      rw [Range.owners_perm (hcut.map _), Range.owners_perm (hperm'.map _), List.map_cons,
        List.map_cons, List.map_cons, Areas.map_range_congr hothers]
      unfold Areas.range
      rw [hself, hover, Range.owners_split, Nat.add_sub_cancel' hle]
    . intro b hb
      rw [hcut.mem_iff, List.mem_cons, List.mem_cons] at hb
      rcases hb with rfl | rfl | hb
      . exact Areas.Sized.of_eq hself hpos hdvd (hsize.trans hsized.2.2)
      . apply Areas.Sized.of_eq hover (by omega) (Nat.dvd_sub hsized.2.1 hdvd)
        have := hsized.2.2
        omega
      . exact (h.sized b (hperm'.mem_iff.mpr (List.mem_cons_of_mem a hb))).congr (hothers b hb)

end Holds

/-- The sizes of the areas by which the file grows can be stored. -/
def GrowthFits (f : AreaFile) (size : Nat) : Prop :=
  size < 2 ^ 32 ∧ f.totalGrowth size - size < 2 ^ 32

theorem le_totalGrowth (f : AreaFile) (size : Nat) : size ≤ f.totalGrowth size := by
  have hle := le_padding (a := max (max size (10 * AREA_SIZE)) (f.fileSize / 4))
    (b := AREA_SIZE) (by decide)
  unfold totalGrowth
  omega

theorem dvd_totalGrowth (f : AreaFile) (size : Nat) : AREA_SIZE ∣ f.totalGrowth size := by
  unfold totalGrowth padding
  exact Nat.dvd_mul_left _ _

/-- The new end of the file is one more area. -/
theorem Holds.grown {f : AreaFile} {singles multis used : List Nat}
    (h : f.Holds singles multis used) (g : Nat) :
    Range.Tiles (⟨f.fileSize, g⟩ :: (singles ++ multis ++ used).map f.areas.range)
      [⟨AREA_SIZE, f.fileSize + g - AREA_SIZE⟩] := by
  have hstart := h.start
  have hadd := h.tiles.add (r := ⟨f.fileSize, g⟩) (by
    intro r hr x hx hx'
    rw [List.mem_singleton] at hr
    subst hr
    unfold Range.Has at hx hx'
    dsimp only at hx hx'
    omega)
  apply hadd.of_outer
  intro x
  have hsplit := Range.owners_split [] AREA_SIZE (f.fileSize - AREA_SIZE) g x
  rw [Nat.add_sub_cancel' hstart] at hsplit
  have hcomm : f.fileSize + g - AREA_SIZE = f.fileSize - AREA_SIZE + g := by omega
  rw [hcomm, ← hsplit]
  exact Range.owners_perm (List.Perm.swap _ _ _) x

theorem Holds.resizeFile {f f' : AreaFile} {singles multis used : List Nat} {a size : Nat}
    (h : f.Holds singles multis used) (hpos : 0 < size) (hdvd : AREA_SIZE ∣ size)
    (hfits : f.GrowthFits size) (hresize : f.resizeFile size = some (f', a)) :
    ∃ multis', f'.Holds singles multis' (a :: used) ∧ f'.areas.size a = size ∧
      f'.areas.next a = 0 ∧ ∀ b ∈ used, f'.areas.head b = f.areas.head b := by
  have hle := f.le_totalGrowth size
  have hgrowth := f.dvd_totalGrowth size
  have htiles := h.grown (f.totalGrowth size)
  have hbefore : ∀ b ∈ singles ++ multis ++ used, b < f.fileSize := by
    intro b hb
    have hin := (h.inside hb).2
    have hsized := (h.sized b hb).1
    omega
  have hstart := h.start
  have hwhole := h.whole
  obtain ⟨hsize, hrest⟩ := hfits
  have hnext : ∀ {m : Areas} {l : AreaList} {xs : List Nat}, l.Holds f.areas xs →
      (∀ b ∈ xs, m.head b = f.areas.head b) → l.Holds m xs := by
    intro m l xs hl heq
    apply hl.congr
    intro b hb
    unfold Areas.next
    rw [heq b hb]
  unfold AreaFile.resizeFile at hresize
  generalize f.totalGrowth size = g at hle hgrowth htiles hrest hresize
  simp only at hresize
  split at hresize
  next => cases hresize
  next =>
    split at hresize
    next hlt =>
      simp only [Option.some.injEq, Prod.mk.injEq] at hresize
      obtain ⟨rfl, rfl⟩ := hresize
      have hkeep : ∀ b ∈ singles ++ multis ++ used, ((f.areas.init f.fileSize size 0).init
          (f.fileSize + size) (g - size) 0).head b = f.areas.head b := by
        intro b hb
        have hlt := hbefore b hb
        rw [Areas.init_of_ne (by omega), Areas.init_of_ne (by omega)]
      generalize hm : (f.areas.init f.fileSize size 0).init (f.fileSize + size) (g - size) 0 = m
        at hkeep
      have hrestSize : m.size (f.fileSize + size) = g - size := by
        rw [← hm, Areas.size_init, Function.update_self, Nat.mod_eq_of_lt hrest]
      have hnewSize : m.size f.fileSize = size := by
        rw [← hm, Areas.size_init, Function.update_of_ne (by omega), Areas.size_init,
          Function.update_self, Nat.mod_eq_of_lt hsize]
      have hnewNext : m.next f.fileSize = 0 := by
        rw [← hm, Areas.next_init, Function.update_of_ne (by omega), Areas.next_init,
          Function.update_self]
      have hfresh : f.fileSize + size ∉ singles ++ multis ++ used := by
        intro hmem
        have := hbefore _ hmem
        omega
      have hnull := h.null_notMem
      have hmulti : f.multiAreas.Holds m multis :=
        hnext h.multi fun b hb => hkeep b (by simp [hb])
      have hpush := AreaList.push_spec hmulti (a := f.fileSize + size)
        (fun hmem => hfresh (by simp [hmem])) fun hmem => hnull (by simp [hmem])
      have hkeep' : ∀ b, b ≠ f.fileSize + size →
          (f.multiAreas.push m (f.fileSize + size)).2.head b = m.head b := by
        intro b hb
        exact Areas.init_of_ne hb
      have hpushSize : (f.multiAreas.push m (f.fileSize + size)).2.size (f.fileSize + size) =
          g - size := by
        unfold AreaList.push
        rw [Areas.size_init, Function.update_self, hrestSize, Nat.mod_eq_of_lt hrest]
      generalize f.multiAreas.push m (f.fileSize + size) = r at hpush hkeep' hpushSize
      have hall : ∀ b ∈ singles ++ multis ++ used, r.2.head b = f.areas.head b := by
        intro b hb
        rw [hkeep' b _, hkeep b hb]
        rintro rfl
        exact hfresh hb
      have hsizes : ∀ b ∈ singles ++ multis ++ used, r.2.size b = f.areas.size b := by
        intro b hb
        unfold Areas.size
        rw [hall b hb]
      have hself : r.2.head f.fileSize = m.head f.fileSize := hkeep' _ (by omega)
      have hselfSize : r.2.size f.fileSize = size := by
        rw [← hnewSize]
        unfold Areas.size
        rw [hself]
      have hperm : (singles ++ (f.fileSize + size) :: multis ++ f.fileSize :: used).Perm
          (f.fileSize :: (f.fileSize + size) :: (singles ++ multis ++ used)) := by
        rw [List.perm_iff_count]
        intro b
        simp only [List.count_append, List.count_cons]
        omega
      refine ⟨(f.fileSize + size) :: multis, ?_, hselfSize, ?_, fun b hb => hall b (by simp [hb])⟩
      . refine ⟨hnext h.single fun b hb => hall b (by simp [hb]), hpush, ?_, ?_, ?_, ?_, ?_⟩
        . apply Range.Tiles.perm _ (hperm.map _)
          apply htiles.of_owners
          intro x
          rw [List.map_cons, List.map_cons, Areas.map_range_congr hsizes]
          unfold Areas.range
          rw [hselfSize, hpushSize, Range.owners_split, Nat.add_sub_cancel' hle]
        . intro b hb
          rw [hperm.mem_iff, List.mem_cons, List.mem_cons] at hb
          rcases hb with rfl | rfl | hb
          . exact Areas.Sized.of_eq hselfSize hpos hdvd hsize
          . exact Areas.Sized.of_eq hpushSize (by omega) (Nat.dvd_sub hgrowth hdvd) hrest
          . exact (h.sized b hb).congr (hsizes b hb)
        . intro b hb
          rw [hsizes b (by simp [hb])]
          exact h.ones b hb
        . exact hstart.trans (Nat.le_add_right _ _)
        . exact Nat.dvd_add hwhole hgrowth
      . unfold Areas.next
        rw [hself]
        exact hnewNext
    next hlt =>
      simp only [Option.some.injEq, Prod.mk.injEq] at hresize
      obtain ⟨rfl, rfl⟩ := hresize
      have heq : g = size := by omega
      subst heq
      have hkeep : ∀ b ∈ singles ++ multis ++ used,
          (f.areas.init f.fileSize g 0).head b = f.areas.head b := by
        intro b hb
        exact Areas.init_of_ne (hbefore b hb).ne
      have hself : (f.areas.init f.fileSize g 0).size f.fileSize = g := by
        rw [Areas.size_init, Function.update_self, Nat.mod_eq_of_lt hsize]
      have hsizes : ∀ b ∈ singles ++ multis ++ used,
          (f.areas.init f.fileSize g 0).size b = f.areas.size b := by
        intro b hb
        unfold Areas.size
        rw [hkeep b hb]
      have hperm : (singles ++ multis ++ f.fileSize :: used).Perm
          (f.fileSize :: (singles ++ multis ++ used)) := List.perm_middle
      refine ⟨multis, ?_, hself, ?_, fun b hb => hkeep b (by simp [hb])⟩
      . refine ⟨hnext h.single fun b hb => hkeep b (by simp [hb]),
          hnext h.multi fun b hb => hkeep b (by simp [hb]), ?_, ?_, ?_, ?_, ?_⟩
        . apply Range.Tiles.perm _ (hperm.map _)
          rw [List.map_cons, Areas.map_range_congr hsizes]
          unfold Areas.range
          rw [hself]
          exact htiles
        . intro b hb
          rw [hperm.mem_iff, List.mem_cons] at hb
          rcases hb with rfl | hb
          . exact Areas.Sized.of_eq hself hpos hdvd hsize
          . exact (h.sized b hb).congr (hsizes b hb)
        . intro b hb
          rw [hsizes b (by simp [hb])]
          exact h.ones b hb
        . exact hstart.trans (Nat.le_add_right _ _)
        . exact Nat.dvd_add hwhole hdvd
      . simp

/-- An area of this size has been handed out: it has left the pool or the file has grown, and the
areas in use are as before. -/
structure Hands (f f' : AreaFile) (used : List Nat) (a size : Nat) : Prop where
  holds : ∃ singles multis, f'.Holds singles multis (a :: used)
  size : f'.areas.size a = size
  next : f'.areas.next a = 0
  same : ∀ b ∈ used, f'.areas.head b = f.areas.head b

variable {f f' : AreaFile} {singles multis used l : List Nat} {a size : Nat}

theorem Holds.used_notMem (h : f.Holds singles multis (a :: used)) :
    a ∉ singles ++ multis ∧ a ∉ used := by
  have hnodup := h.nodup
  rw [List.nodup_append] at hnodup
  constructor
  . intro hmem
    exact hnodup.2.2 a hmem a (by simp) rfl
  . exact (List.nodup_cons.mp hnodup.2.1).1

/-- The pool clears the link of an area it hands out. -/
theorem Hands.of_unlinked (h : f'.Holds singles multis (a :: used))
    (hsize : f'.areas.size a = size) (hsame : ∀ b ∈ used, f'.areas.head b = f.areas.head b) :
    f.Hands { f' with areas := f'.areas.setNext a 0 } used a size := by
  obtain ⟨hpool, hused⟩ := h.used_notMem
  refine ⟨⟨singles, multis, h.setNext hpool 0⟩, ?_, ?_, ?_⟩
  . rw [← hsize]
    exact congrFun Areas.size_setNext a
  . simp
  . intro b hb
    rw [← hsame b hb]
    apply Areas.setNext_of_ne
    rintro rfl
    exact hused hb

theorem Holds.poolMulti (h : f.Holds singles multis used) (hpos : 0 < size)
    (hdvd : AREA_SIZE ∣ size) (hpool : f.poolMulti size = some (f', a)) :
    f.Hands f' used a size := by
  unfold AreaFile.poolMulti at hpool
  split at hpool
  next l m c htake =>
    simp only [Option.some.injEq, Prod.mk.injEq] at hpool
    obtain ⟨rfl, rfl⟩ := hpool
    obtain ⟨multis', hholds, hsize, -, hsame⟩ := h.take hpos hdvd htake
    exact Hands.of_unlinked hholds hsize hsame
  next => cases hpool

theorem Holds.poolSingle (h : f.Holds singles multis used)
    (hpool : f.poolSingle = some (f', a)) : f.Hands f' used a AREA_SIZE := by
  unfold AreaFile.poolSingle at hpool
  split at hpool
  next l c hpop =>
    simp only [Option.some.injEq, Prod.mk.injEq] at hpool
    obtain ⟨rfl, rfl⟩ := hpool
    obtain ⟨singles', rfl, hl⟩ := AreaList.pop_spec h.single hpop
    have hnull := h.null_notMem
    have hholds := h.pop (hl fun hmem => hnull (by simp [hmem]))
    exact Hands.of_unlinked hholds (h.ones c List.mem_cons_self) fun b _ => rfl
  next =>
    split at hpool
    next l m c htake =>
      simp only [Option.some.injEq, Prod.mk.injEq] at hpool
      obtain ⟨rfl, rfl⟩ := hpool
      obtain ⟨multis', hholds, hsize, -, hsame⟩ := h.take (by decide) (Nat.dvd_refl _) htake
      exact Hands.of_unlinked hholds hsize hsame
    next => cases hpool

/-- Where the file has to grow for an area and can, the sizes can be stored. -/
def GrowsWell (f : AreaFile) (size : Nat) : Prop :=
  f.fileSize + f.totalGrowth size ≤ f.regionSize → f.GrowthFits size

def SingleFits (f : AreaFile) : Prop := f.poolSingle = none → f.GrowsWell AREA_SIZE

def MultiFits (f : AreaFile) (size : Nat) : Prop :=
  f.poolMulti (padding size AREA_SIZE) = none → f.GrowsWell (padding size AREA_SIZE)

theorem Holds.grow (h : f.Holds singles multis used) (hpos : 0 < size)
    (hdvd : AREA_SIZE ∣ size) (hfits : f.GrowsWell size)
    (hresize : f.resizeFile size = some (f', a)) : f.Hands f' used a size := by
  have hroom : f.fileSize + f.totalGrowth size ≤ f.regionSize := by
    by_contra hfull
    unfold AreaFile.resizeFile at hresize
    rw [if_pos (by omega)] at hresize
    cases hresize
  obtain ⟨multis', hholds, hsize, hnext, hsame⟩ := h.resizeFile hpos hdvd (hfits hroom) hresize
  exact ⟨⟨singles, multis', hholds⟩, hsize, hnext, hsame⟩

theorem Holds.allocSingleArea (h : f.Holds singles multis used) (hfits : f.SingleFits)
    (halloc : f.allocSingleArea = some (f', a)) : f.Hands f' used a AREA_SIZE := by
  unfold AreaFile.allocSingleArea at halloc
  split at halloc
  next r hpool =>
    cases halloc
    exact h.poolSingle hpool
  next hpool => exact h.grow (by decide) (Nat.dvd_refl _) (hfits hpool) halloc

theorem Holds.allocMultiArea (h : f.Holds singles multis used) (hpos : 0 < size)
    (hfits : f.MultiFits size) (halloc : f.allocMultiArea size = some (f', a)) :
    f.Hands f' used a (padding size AREA_SIZE) := by
  have hpos' : 0 < padding size AREA_SIZE := padding_pos hpos (by decide)
  have hdvd : AREA_SIZE ∣ padding size AREA_SIZE := Nat.dvd_mul_left _ _
  unfold AreaFile.allocMultiArea at halloc
  split at halloc
  next r hpool =>
    cases halloc
    exact h.poolMulti hpos' hdvd hpool
  next hpool => exact h.grow hpos' hdvd (hfits hpool) halloc

theorem Holds.returnSingleAreas {first last : Nat} (h : f.Holds singles multis (l ++ used))
    (hl : Chain f.areas.next 0 first last l) (hones : ∀ a ∈ l, f.areas.size a = AREA_SIZE) :
    (f.returnSingleAreas first last).Holds (singles ++ l) multis used ∧
      ∀ b ∈ l ++ used, (f.returnSingleAreas first last).areas.head b = f.areas.head b := by
  have hperm : ((singles ++ l) ++ multis ++ used).Perm (singles ++ multis ++ (l ++ used)) := by
    rw [List.perm_iff_count]
    intro b
    simp only [List.count_append]
    omega
  have hnull := h.null_notMem
  have hnodup := hperm.nodup_iff.mpr h.nodup
  have hadd := AreaList.add_spec h.single hl
    (List.nodup_append.mp (List.nodup_append.mp hnodup).1).1
    (fun hmem => hnull (hperm.mem_iff.mp (by simp only [List.mem_append] at hmem ⊢; tauto)))
  have hsize := AreaList.size_add f.singleAreas f.areas first last
  have hkeep : ∀ b, b ∉ singles →
      (f.singleAreas.add f.areas first last).2.head b = f.areas.head b := by
    intro b hb
    exact AreaList.add_of_notMem h.single (fun hmem => hnull (by simp [hmem])) hb
  have hdisj := (List.nodup_append.mp h.nodup).2.2
  have hmultis := (List.nodup_append.mp (List.nodup_append.mp h.nodup).1).2.2
  unfold AreaFile.returnSingleAreas
  refine ⟨⟨hadd, ?_, ?_, ?_, ?_, h.start, h.whole⟩, ?_⟩
  . apply h.multi.congr
    intro b hb
    unfold Areas.next
    rw [hkeep b fun hmem => hmultis b hmem b hb rfl]
  . rw [Areas.map_range_congr fun b _ => congrFun hsize b]
    exact h.tiles.perm (hperm.map _)
  . intro b hb
    exact (h.sized b (hperm.mem_iff.mp hb)).congr (congrFun hsize b)
  . intro b hb
    simp only
    rw [congrFun hsize b]
    rw [List.mem_append] at hb
    exact hb.elim (h.ones b) (hones b)
  . intro b hb
    exact hkeep b fun hmem => hdisj b (by simp [hmem]) b hb rfl

theorem Holds.returnMultiAreas {first last : Nat} (h : f.Holds singles multis (l ++ used))
    (hl : Chain f.areas.next 0 first last l) :
    (f.returnMultiAreas first last).Holds singles (multis ++ l) used ∧
      ∀ b ∈ l ++ used, (f.returnMultiAreas first last).areas.head b = f.areas.head b := by
  have hperm : (singles ++ (multis ++ l) ++ used).Perm (singles ++ multis ++ (l ++ used)) := by
    rw [List.perm_iff_count]
    intro b
    simp only [List.count_append]
    omega
  have hnull := h.null_notMem
  have hnodup := hperm.nodup_iff.mpr h.nodup
  have hadd := AreaList.add_spec h.multi hl
    (List.nodup_append.mp (List.nodup_append.mp hnodup).1).2.1
    (fun hmem => hnull (hperm.mem_iff.mp (by simp only [List.mem_append] at hmem ⊢; tauto)))
  have hsize := AreaList.size_add f.multiAreas f.areas first last
  have hkeep : ∀ b, b ∉ multis →
      (f.multiAreas.add f.areas first last).2.head b = f.areas.head b := by
    intro b hb
    exact AreaList.add_of_notMem h.multi (fun hmem => hnull (by simp [hmem])) hb
  have hdisj := (List.nodup_append.mp h.nodup).2.2
  have hsingles := (List.nodup_append.mp (List.nodup_append.mp h.nodup).1).2.2
  unfold AreaFile.returnMultiAreas
  refine ⟨⟨?_, hadd, ?_, ?_, ?_, h.start, h.whole⟩, ?_⟩
  . apply h.single.congr
    intro b hb
    unfold Areas.next
    rw [hkeep b fun hmem => hsingles b hb b hmem rfl]
  . rw [Areas.map_range_congr fun b _ => congrFun hsize b]
    exact h.tiles.perm (hperm.map _)
  . intro b hb
    exact (h.sized b (hperm.mem_iff.mp hb)).congr (congrFun hsize b)
  . intro b hb
    simp only
    rw [congrFun hsize b]
    exact h.ones b hb
  . intro b hb
    exact hkeep b fun hmem => hdisj b (by simp [hmem]) b hb rfl

end AreaFile
end Leaves
