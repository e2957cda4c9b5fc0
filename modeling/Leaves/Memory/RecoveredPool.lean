import Leaves.Lib.Runs
import Leaves.Memory.AreaPool
import Leaves.Memory.Recovery
import Mathlib.Data.Finset.Card
import Mathlib.Data.Finset.Range
import Mathlib.Data.Set.Insert
import Mathlib.Tactic.Tauto

/-!
The recovery of the areas ends, and the pool that it builds holds the runs of blocks that no
database owns.
-/

namespace Leaves

section Marking

variable {areaSize : Nat} {m : Areas} {occupied : Occupied} {n cur remaining x : Nat}

theorem blockOf_last (hpos : 0 < remaining) (hle : remaining ≤ areaSize) (hcur : cur < 2 ^ 64) :
    BlockOf areaSize ⟨cur, remaining⟩ x ↔ x = cur := by
  constructor
  . rintro ⟨i, hi, rfl⟩
    cases i with
    | zero =>
      dsimp only
      rw [Nat.zero_mul, Nat.add_zero, Nat.mod_eq_of_lt hcur]
    | succ i =>
      rw [Nat.succ_mul] at hi
      dsimp only at hi
      omega
  . rintro rfl
    refine ⟨0, by simpa using hpos, ?_⟩
    rw [Nat.zero_mul, Nat.add_zero, Nat.mod_eq_of_lt hcur]

theorem blockOf_more (hlt : areaSize < remaining) (hcur : cur < 2 ^ 64) :
    BlockOf areaSize ⟨cur, remaining⟩ x ↔
      x = cur ∨ BlockOf areaSize ⟨(cur + areaSize) % 2 ^ 64, remaining - areaSize⟩ x := by
  constructor
  . rintro ⟨i, hi, rfl⟩
    cases i with
    | zero =>
      left
      dsimp only
      rw [Nat.zero_mul, Nat.add_zero, Nat.mod_eq_of_lt hcur]
    | succ i =>
      right
      rw [Nat.succ_mul] at hi ⊢
      dsimp only at hi ⊢
      refine ⟨i, by dsimp only; omega, ?_⟩
      dsimp only
      rw [Nat.mod_add_mod]
      congr 1
      omega
  . rintro (rfl | ⟨i, hi, rfl⟩)
    . refine ⟨0, by simp; omega, ?_⟩
      rw [Nat.zero_mul, Nat.add_zero, Nat.mod_eq_of_lt hcur]
    . refine ⟨i + 1, ?_, ?_⟩
      . dsimp only at hi ⊢
        rw [Nat.succ_mul]
        omega
      . dsimp only
        rw [Nat.mod_add_mod, Nat.succ_mul]
        congr 1
        omega

theorem mem_markOccupiedRange (hpos : 0 < remaining) (hn : remaining ≤ n) (hsize : 0 < areaSize)
    (hcur : cur < 2 ^ 64) : x ∈ markOccupiedRange areaSize n cur remaining occupied ↔
      x ∈ occupied ∨ BlockOf areaSize ⟨cur, remaining⟩ x := by
  induction n generalizing cur remaining occupied with
  | zero => omega
  | succ n ih =>
    unfold markOccupiedRange
    split
    next hle =>
      rw [Finset.mem_insert, blockOf_last hpos hle hcur, or_comm]
    next hlt =>
      have hlt' : areaSize < remaining := by omega
      rw [ih (by omega) (by omega) (Nat.mod_lt _ (by omega)), Finset.mem_insert,
        blockOf_more hlt' hcur]
      tauto

theorem mem_markRange (hsize : 0 < areaSize) {r : Range} (hstart : r.start < 2 ^ 64)
    (hr : r.size < 2 ^ 64) :
    x ∈ markRange areaSize occupied r ↔ x ∈ occupied ∨ BlockOf areaSize r x := by
  unfold markRange
  rw [Nat.mod_eq_of_lt hstart, Nat.mod_eq_of_lt hr]
  by_cases h0 : r.size = 0
  . rw [h0]
    simp [markOccupiedRange, BlockOf, h0]
  . exact mem_markOccupiedRange (by omega) (Nat.le_refl _) hsize hstart

end Marking

namespace FileImage

variable {areaSize : Nat} {f : FileImage} {known : Set Nat} {occupied occupied' : Occupied}
  {head x : Nat} {dbs : List Nat}

/-- The occupied blocks are those of these areas. -/
def BlocksOf (areaSize : Nat) (m : Areas) (known : Set Nat) (occupied : Occupied) : Prop :=
  ∀ x, x ∈ occupied ↔ ∃ a ∈ known, AreaBlock areaSize m a x

theorem BlocksOf.mark (h : BlocksOf areaSize f.areas known occupied) (hsize : 0 < areaSize)
    (hhead : head < 2 ^ 64) : BlocksOf areaSize f.areas (insert head known)
      (markRange areaSize (insert head occupied) (f.areas.range head)) := by
  intro x
  have hlt := f.size_lt head
  rw [mem_markRange hsize hhead (by dsimp only [Areas.range]; omega), Finset.mem_insert, h x]
  constructor
  . rintro ((rfl | ⟨a, ha, hblock⟩) | hblock)
    . exact ⟨x, Set.mem_insert x known, Or.inl rfl⟩
    . exact ⟨a, Set.mem_insert_of_mem head ha, hblock⟩
    . exact ⟨head, Set.mem_insert head known, Or.inr hblock⟩
  . rintro ⟨a, rfl | ha, rfl | hblock⟩
    . exact Or.inl (Or.inl rfl)
    . exact Or.inr hblock
    . exact Or.inl (Or.inr ⟨x, ha, Or.inl rfl⟩)
    . exact Or.inl (Or.inr ⟨a, ha, Or.inr hblock⟩)

theorem subset_markRange {r : Range} (hsize : 0 < areaSize) (hstart : r.start < 2 ^ 64)
    (hr : r.size < 2 ^ 64) : occupied ⊆ markRange areaSize occupied r := by
  intro x hx
  exact (mem_markRange hsize hstart hr).mpr (Or.inl hx)

/-- The offsets that are not known yet. -/
def unknown (occupied : Occupied) : Finset Nat := Finset.range (2 ^ 64) \ occupied

/-- Every round of a walk makes an offset known. -/
theorem walkChain_isSome {n : Nat} (hsize : 0 < areaSize) (hhead : head < 2 ^ 64)
    (hn : (unknown occupied).card < n) : ∃ r, walkChain areaSize f.areas n head occupied = some r := by
  induction n generalizing head occupied with
  | zero => omega
  | succ n ih =>
    unfold walkChain
    split
    next => exact ⟨occupied, rfl⟩
    next hnot =>
      rw [not_or] at hnot
      apply ih (f.next_lt head)
      have hlt := f.size_lt head
      have hsub : insert head occupied ⊆
          markRange areaSize (insert head occupied) (f.areas.range head) :=
        subset_markRange hsize hhead (by dsimp only [Areas.range]; omega)
      have hless : (unknown (markRange areaSize (insert head occupied) (f.areas.range head))).card <
          (unknown occupied).card := by
        apply Finset.card_lt_card
        rw [Finset.ssubset_iff]
        refine ⟨head, ?_, ?_⟩
        . unfold unknown
          rw [Finset.mem_sdiff, not_and_not_right]
          intro _
          exact hsub (Finset.mem_insert_self head occupied)
        . intro y hy
          unfold unknown at hy ⊢
          rw [Finset.mem_insert, Finset.mem_sdiff] at hy
          rw [Finset.mem_sdiff]
          rcases hy with rfl | ⟨hrange, hy⟩
          . exact ⟨Finset.mem_range.mpr hhead, hnot.2⟩
          . exact ⟨hrange, fun hmem => hy (hsub (Finset.mem_insert_of_mem hmem))⟩
      omega

theorem walkChain_rounds (f : FileImage) (occupied : Occupied) (hsize : 0 < areaSize)
    (hhead : head < 2 ^ 64) :
    ∃ r, walkChain areaSize f.areas WALK_ROUNDS head occupied = some r := by
  apply walkChain_isSome hsize hhead
  have hle := Finset.card_le_card (Finset.sdiff_subset (s := Finset.range (2 ^ 64)) (t := occupied))
  rw [Finset.card_range] at hle
  exact Nat.lt_succ_of_le hle

/-- Every known area leads to a known one, the last one of a walk to the head that is next. -/
def ClosedUpTo (m : Areas) (known : Set Nat) (head : Nat) : Prop :=
  ∀ a ∈ known, m.next a = 0 ∨ m.next a ∈ known ∨ m.next a = head

/-- A walk makes areas of its chain known. Where it cannot come to the middle of an area, it makes
all of them known. -/
theorem walkChain_spec {n : Nat} (hsize : 0 < areaSize) (hhead : head < 2 ^ 64)
    (hblocks : BlocksOf areaSize f.areas known occupied)
    (hwalk : walkChain areaSize f.areas n head occupied = some occupied') :
    ∃ known', known ⊆ known' ∧ (∀ a ∈ known', a ∈ known ∨ Reaches f.areas head a) ∧
      BlocksOf areaSize f.areas known' occupied' ∧
      ((∀ a b, (a ∈ known ∨ Reaches f.areas head a) → Reaches f.areas head b →
          AreaBlock areaSize f.areas a b → b = a) →
        ClosedUpTo f.areas known head →
        (head = 0 ∨ head ∈ known') ∧
          ∀ a ∈ known', f.areas.next a = 0 ∨ f.areas.next a ∈ known') := by
  induction n generalizing head known occupied with
  | zero => cases hwalk
  | succ n ih =>
    unfold walkChain at hwalk
    split at hwalk
    next hstop =>
      cases hwalk
      refine ⟨known, Set.Subset.refl known, fun a ha => Or.inl ha, hblocks, ?_⟩
      intro hjoined hclosed
      have hknown : head = 0 ∨ head ∈ known := by
        rcases hstop with h0 | hmem
        . exact Or.inl h0
        . by_cases h0 : head = 0
          . exact Or.inl h0
          . right
            obtain ⟨a, ha, hblock⟩ := (hblocks head).mp hmem
            have heq := hjoined a head (Or.inl ha) (Reaches.head h0) hblock
            rw [heq]
            exact ha
      refine ⟨hknown, ?_⟩
      intro a ha
      rcases hclosed a ha with h0 | hmem | heq
      . exact Or.inl h0
      . exact Or.inr hmem
      . rw [heq]
        exact hknown
    next hgo =>
      rw [not_or] at hgo
      obtain ⟨known', hsub, hreach, hblocks', hall⟩ :=
        ih (f.next_lt head) (hblocks.mark hsize hhead) hwalk
      have hback : ∀ a, a ∈ insert head known ∨ Reaches f.areas (f.areas.next head) a →
          a ∈ known ∨ Reaches f.areas head a := by
        rintro a ((rfl | ha) | hrest)
        . exact Or.inr (Reaches.head hgo.1)
        . exact Or.inl ha
        . exact Or.inr (Reaches.next hgo.1 hrest)
      refine ⟨known', fun a ha => hsub (Set.mem_insert_of_mem head ha), ?_, hblocks', ?_⟩
      . intro a ha
        exact hback a (hreach a ha)
      . intro hjoined hclosed
        have hin := hall ?_ ?_
        . exact ⟨Or.inr (hsub (Set.mem_insert head known)), hin.2⟩
        . intro a b ha hb
          exact hjoined a b (hback a ha) (Reaches.next hgo.1 hb)
        . rintro a (rfl | ha)
          . exact Or.inr (Or.inr rfl)
          . rcases hclosed a ha with h0 | hmem | heq
            . exact Or.inl h0
            . exact Or.inr (Or.inl (Set.mem_insert_of_mem head hmem))
            . right
              left
              rw [heq]
              exact Set.mem_insert head known

/-- Every known area leads to a known one. -/
def Closed (m : Areas) (known : Set Nat) : Prop := ∀ a ∈ known, m.next a = 0 ∨ m.next a ∈ known

theorem Closed.upTo {m : Areas} (h : Closed m known) (head : Nat) : ClosedUpTo m known head :=
  fun a ha => (h a ha).imp_right Or.inl

theorem reaches_ne_zero {m : Areas} {a : Nat} (h : Reaches m head a) : head ≠ 0 := by
  cases h with
  | head ha => exact ha
  | next ha _ => exact ha

theorem Closed.reaches {m : Areas} {a : Nat} (h : Closed m known) (hreach : Reaches m head a)
    (hhead : head ∈ known) : a ∈ known := by
  induction hreach with
  | head _ => exact hhead
  | next _ hrest ih =>
    apply ih
    exact (h _ hhead).resolve_left (reaches_ne_zero hrest)

/-- The known areas are in the lists of the databases. Where the chains meet only at the beginning
of an area, the known ones are closed, and those of these databases are among them. -/
structure Known (areaSize : Nat) (f : FileImage) (dbs done : List Nat) (known : Set Nat)
    (occupied : Occupied) : Prop where
  listed : ∀ a ∈ known, f.Listed dbs a
  blocks : BlocksOf areaSize f.areas known occupied
  joined : f.Joined areaSize dbs → Closed f.areas known ∧
    ∀ db ∈ done, db ≠ 0 → ∀ a, Reaches f.areas (f.areaListHeads db).1 a ∨
      Reaches f.areas (f.areaListHeads db).2 a → a ∈ known

theorem walkDb_spec {done : List Nat} {db : Nat} (hsize : 0 < areaSize) (hdb : db ∈ dbs)
    (h : Known areaSize f dbs done known occupied) : ∃ occupied' known',
      walkDb areaSize f occupied db = some occupied' ∧
      Known areaSize f dbs (db :: done) known' occupied' := by
  unfold walkDb
  split
  next h0 =>
    refine ⟨occupied, known, rfl, h.listed, h.blocks, ?_⟩
    intro hjoined
    refine ⟨(h.joined hjoined).1, ?_⟩
    intro d hd hne
    rw [List.mem_cons] at hd
    exact (h.joined hjoined).2 d (hd.resolve_left fun heq => hne (heq.trans h0)) hne
  next h0 =>
    have hlisted : ∀ a, Reaches f.areas (f.areaListHeads db).1 a ∨
        Reaches f.areas (f.areaListHeads db).2 a → f.Listed dbs a :=
      fun a ha => ⟨db, hdb, h0, ha⟩
    obtain ⟨hlt1, hlt2⟩ := f.heads_lt db
    obtain ⟨occ1, hwalk1⟩ := walkChain_rounds f occupied hsize hlt1
    obtain ⟨occ2, hwalk2⟩ := walkChain_rounds f occ1 hsize hlt2
    obtain ⟨known1, hsub1, hreach1, hblocks1, hall1⟩ := walkChain_spec hsize hlt1 h.blocks hwalk1
    obtain ⟨known2, hsub2, hreach2, hblocks2, hall2⟩ := walkChain_spec hsize hlt2 hblocks1 hwalk2
    have hlisted1 : ∀ a ∈ known1, f.Listed dbs a := by
      intro a ha
      exact (hreach1 a ha).elim (h.listed a) fun hr => hlisted a (Or.inl hr)
    have hlisted2 : ∀ a ∈ known2, f.Listed dbs a := by
      intro a ha
      exact (hreach2 a ha).elim (hlisted1 a) fun hr => hlisted a (Or.inr hr)
    refine ⟨occ2, known2, ?_, hlisted2, hblocks2, ?_⟩
    . rw [hwalk1]
      exact hwalk2
    . intro hjoined
      obtain ⟨hclosed, hdone⟩ := h.joined hjoined
      obtain ⟨hhead1, hclosed1⟩ := hall1 (by
        intro a b ha hb
        apply hjoined a b _ (hlisted b (Or.inl hb))
        exact ha.elim (h.listed a) fun hr => hlisted a (Or.inl hr)) (hclosed.upTo _)
      have hclosed1 : Closed f.areas known1 := hclosed1
      obtain ⟨hhead2, hclosed2⟩ := hall2 (by
        intro a b ha hb
        apply hjoined a b _ (hlisted b (Or.inr hb))
        exact ha.elim (hlisted1 a) fun hr => hlisted a (Or.inr hr)) (hclosed1.upTo _)
      have hclosed2 : Closed f.areas known2 := hclosed2
      refine ⟨hclosed2, ?_⟩
      intro d hd hne a ha
      rw [List.mem_cons] at hd
      rcases hd with rfl | hd
      . rcases ha with ha | ha
        . exact hsub2 (hclosed1.reaches ha (hhead1.resolve_left (reaches_ne_zero ha)))
        . exact hclosed2.reaches ha (hhead2.resolve_left (reaches_ne_zero ha))
      . exact hsub2 (hsub1 (hdone d hd hne a ha))

theorem walkDbs_spec {done todo : List Nat} (hsize : 0 < areaSize) (hdbs : ∀ db ∈ todo, db ∈ dbs)
    (h : Known areaSize f dbs done known occupied) : ∃ occupied' known',
      todo.foldlM (walkDb areaSize f) occupied = some occupied' ∧
      Known areaSize f dbs (todo.reverse ++ done) known' occupied' := by
  induction todo generalizing done known occupied with
  | nil => exact ⟨occupied, known, rfl, h⟩
  | cons db todo ih =>
    obtain ⟨occ1, known1, hwalk, h1⟩ := walkDb_spec hsize (hdbs db List.mem_cons_self) h
    obtain ⟨occ2, known2, hrest, h2⟩ := ih (fun d hd => hdbs d (List.mem_cons_of_mem db hd)) h1
    refine ⟨occ2, known2, ?_, ?_⟩
    . rw [List.foldlM_cons, hwalk]
      exact hrest
    . rw [List.reverse_cons, List.append_assoc]
      exact h2

theorem mem_markRanges {extra : List Range} (hsize : 0 < areaSize)
    (hextra : ∀ r ∈ extra, r.start < 2 ^ 64 ∧ r.size < 2 ^ 64) :
    x ∈ extra.foldl (markRange areaSize) occupied ↔
      x ∈ occupied ∨ ∃ r ∈ extra, BlockOf areaSize r x := by
  induction extra generalizing occupied with
  | nil => simp
  | cons r extra ih =>
    obtain ⟨hstart, hr⟩ := hextra r List.mem_cons_self
    rw [List.foldl_cons, ih fun r' hr' => hextra r' (List.mem_cons_of_mem r hr'),
      mem_markRange hsize hstart hr]
    simp only [List.mem_cons, exists_eq_or_imp]
    tauto

/-- The occupied blocks are owned ones, and all of them where chains do not come to the middle of an
area. -/
theorem collectOccupied_spec (f : FileImage) (dbs : List Nat) {extra : List Range}
    (hsize : 0 < areaSize) (hextra : ∀ r ∈ extra, r.start < 2 ^ 64 ∧ r.size < 2 ^ 64) :
    ∃ occupied, collectOccupied areaSize f dbs extra = some occupied ∧
      (∀ b ∈ occupied, f.Owns areaSize dbs extra b) ∧
      (f.Joined areaSize dbs → ∀ b, f.Owns areaSize dbs extra b → b ∈ occupied) := by
  have hinit : Known areaSize f dbs [] ∅ ∅ := by
    refine ⟨by simp, by simp [BlocksOf], ?_⟩
    intro _
    exact ⟨by simp [Closed], by simp⟩
  obtain ⟨occ, known, hfold, h⟩ := walkDbs_spec hsize (fun _ hdb => hdb) hinit
  refine ⟨extra.foldl (markRange areaSize) occ, ?_, ?_, ?_⟩
  . unfold collectOccupied
    rw [hfold]
    rfl
  . intro b hb
    rw [mem_markRanges hsize hextra] at hb
    rcases hb with hb | hb
    . obtain ⟨a, ha, hblock⟩ := (h.blocks b).mp hb
      exact Or.inl ⟨a, h.listed a ha, hblock⟩
    . exact Or.inr hb
  . intro hjoined b hb
    rw [mem_markRanges hsize hextra]
    rcases hb with ⟨a, ⟨db, hdb, hne, hreach⟩, hblock⟩ | hb
    . left
      rw [h.blocks b]
      refine ⟨a, ?_, hblock⟩
      apply (h.joined hjoined).2 db _ hne a hreach
      simpa using hdb
    . exact Or.inr hb

end FileImage

section Scanning

variable {areaSize firstAreaPos fileSize n i a : Nat} {m : Areas} {occupied : Occupied}
  {head tail pos size : Nat} {l : List Nat} {s : AreaScan} {rs : List (Nat × Nat)}

theorem linkArea_spec (size : Nat) (h : Chain m.next 0 head tail l) (hnodup : l.Nodup)
    (hmem : pos ∉ l) (hnull : 0 ∉ l) : Chain (linkArea m head tail pos size).1.next 0
      (linkArea m head tail pos size).2.1 (linkArea m head tail pos size).2.2 (l ++ [pos]) := by
  unfold linkArea
  dsimp only
  split
  next h0 =>
    rw [(h.first_null hnull).mp h0]
    apply Chain.single
    rw [Areas.next_init, Function.update_self]
  next hne =>
    have hcons : l ≠ [] := by
      rintro rfl
      exact hne h.first_eq
    dsimp only
    rw [Areas.next_setNext, Areas.next_init]
    exact (h.update hmem 0).snoc hcons hnodup hmem (Function.update_self ..)

theorem size_linkArea :
    (linkArea m head tail pos size).1.size = Function.update m.size pos (size % 2 ^ 32) := by
  unfold linkArea
  dsimp only
  split <;> simp

/-- Another list stays the same. -/
theorem linkArea_frame {l' : List Nat} {first last : Nat} (h : Chain m.next 0 first last l')
    (hmem : pos ∉ l') (htail : head ≠ 0 → tail ∉ l') :
    Chain (linkArea m head tail pos size).1.next 0 first last l' := by
  unfold linkArea
  dsimp only
  split
  next =>
    rw [Areas.next_init]
    exact h.update hmem 0
  next hne =>
    dsimp only
    rw [Areas.next_setNext, Areas.next_init]
    exact (h.update hmem 0).update (htail hne) pos

/-- Where the areas of the runs begin. -/
def starts (areaSize firstAreaPos : Nat) (rs : List (Nat × Nat)) : List Nat :=
  rs.map fun r => firstAreaPos + r.1 * areaSize

def ones (rs : List (Nat × Nat)) : List (Nat × Nat) := rs.filter fun r => r.2 = 1

def longer (rs : List (Nat × Nat)) : List (Nat × Nat) := rs.filter fun r => 1 < r.2

/-- The lists of the scan are the areas of these runs. -/
structure AreaScan.Lists (areaSize firstAreaPos : Nat) (s : AreaScan) (rs : List (Nat × Nat)) :
    Prop where
  single : Chain s.areas.next 0 s.singleHead s.singleTail (starts areaSize firstAreaPos (ones rs))
  multi : Chain s.areas.next 0 s.multiHead s.multiTail (starts areaSize firstAreaPos (longer rs))
  size : ∀ r ∈ rs, s.areas.size (firstAreaPos + r.1 * areaSize) = r.2 * areaSize % 2 ^ 32

theorem start_mem (hsize : 0 < areaSize) (ha : ∀ r ∈ rs, r.1 ≠ a) :
    firstAreaPos + a * areaSize ∉ starts areaSize firstAreaPos rs := by
  intro hmem
  unfold starts at hmem
  rw [List.mem_map] at hmem
  obtain ⟨r, hr, heq⟩ := hmem
  apply ha r hr
  apply Nat.eq_of_mul_eq_mul_right hsize
  omega

theorem starts_nodup (firstAreaPos : Nat) (hsize : 0 < areaSize)
    (h : rs.Pairwise fun r r' => r.1 < r'.1) :
    (starts areaSize firstAreaPos rs).Nodup := by
  unfold starts List.Nodup
  rw [List.pairwise_map]
  apply h.imp
  intro r r' hlt heq
  have hmul := (Nat.mul_lt_mul_right hsize).mpr hlt
  omega

theorem starts_append (rs rs' : List (Nat × Nat)) : starts areaSize firstAreaPos (rs ++ rs') =
    starts areaSize firstAreaPos rs ++ starts areaSize firstAreaPos rs' :=
  List.map_append

theorem starts_null (hfirst : 0 < firstAreaPos) : 0 ∉ starts areaSize firstAreaPos rs := by
  intro hmem
  unfold starts at hmem
  rw [List.mem_map] at hmem
  obtain ⟨r, -, heq⟩ := hmem
  omega

/-- The run that is open, if there is one. -/
def AreaScan.openRun (s : AreaScan) (a : Nat) : List (Nat × Nat) :=
  if s.runBlocks = 0 then [] else [(a, s.runBlocks)]

theorem starts_disjoint (firstAreaPos : Nat) (hsize : 0 < areaSize)
    (h : rs.Pairwise fun r r' => r.1 < r'.1) :
    (starts areaSize firstAreaPos (ones rs)).Disjoint
      (starts areaSize firstAreaPos (longer rs)) := by
  intro b hb hb'
  unfold starts at hb hb'
  rw [List.mem_map] at hb hb'
  obtain ⟨r, hr, rfl⟩ := hb
  obtain ⟨r', hr', heq⟩ := hb'
  unfold ones at hr
  unfold longer at hr'
  rw [List.mem_filter, decide_eq_true_eq] at hr hr'
  have hsame := List.inj_on_of_nodup_map (starts_nodup firstAreaPos hsize h) hr'.1
    hr.1 heq
  rw [hsame] at hr'
  omega

theorem AreaScan.flushRun_blocks : (s.flushRun areaSize).runBlocks = 0 := by
  unfold AreaScan.flushRun
  split
  . rfl
  . split
    . rfl
    . omega

/-- The open run becomes an area behind the others in its list. -/
theorem AreaScan.Lists.flushRun (h : s.Lists areaSize firstAreaPos rs) (hsize : 0 < areaSize)
    (hfirst : 0 < firstAreaPos) (hsorted : (rs ++ s.openRun a).Pairwise fun r r' => r.1 < r'.1)
    (hstart : s.runBlocks ≠ 0 → s.runStart = firstAreaPos + a * areaSize) :
    (s.flushRun areaSize).Lists areaSize firstAreaPos (rs ++ s.openRun a) := by
  have hsub : rs.Pairwise fun r r' => r.1 < r'.1 := (List.pairwise_append.mp hsorted).1
  have hdisjoint := starts_disjoint firstAreaPos hsize hsub
  have hnodup : ∀ q : Nat × Nat → Bool, (starts areaSize firstAreaPos (rs.filter q)).Nodup :=
    fun q => starts_nodup firstAreaPos hsize (hsub.filter q)
  have hlast : s.runBlocks ≠ 0 → ∀ r ∈ rs, r.1 ≠ a := by
    intro hne r hr
    unfold AreaScan.openRun at hsorted
    rw [if_neg hne] at hsorted
    have hlt := (List.pairwise_append.mp hsorted).2.2 r hr _ (List.mem_singleton_self _)
    exact Nat.ne_of_lt hlt
  have hsizes : ∀ (m : Areas) size, s.runBlocks ≠ 0 → size = s.runBlocks * areaSize →
      m.size = Function.update s.areas.size s.runStart (size % 2 ^ 32) →
      ∀ r ∈ rs ++ s.openRun a,
        m.size (firstAreaPos + r.1 * areaSize) = r.2 * areaSize % 2 ^ 32 := by
    intro m size hne hsz hm r hr
    unfold AreaScan.openRun at hr
    rw [if_neg hne, List.mem_append, List.mem_singleton] at hr
    rw [hm, hstart hne]
    rcases hr with hr | rfl
    . rw [Function.update_of_ne, h.size r hr]
      intro heq
      apply hlast hne r hr
      apply Nat.eq_of_mul_eq_mul_right hsize
      omega
    . rw [Function.update_self, hsz]
  have hfresh : s.runBlocks ≠ 0 → ∀ q : Nat × Nat → Bool,
      s.runStart ∉ starts areaSize firstAreaPos (rs.filter q) := by
    intro hne q
    rw [hstart hne]
    apply start_mem hsize
    intro r hr
    exact hlast hne r (List.mem_filter.mp hr).1
  unfold AreaScan.flushRun
  split
  next hone =>
    have hne : s.runBlocks ≠ 0 := by omega
    have hones : ones (rs ++ s.openRun a) = ones rs ++ [(a, 1)] := by
      simp [ones, AreaScan.openRun, hone]
    have hlonger : longer (rs ++ s.openRun a) = longer rs := by
      simp [longer, AreaScan.openRun, hone]
    constructor
    . rw [hones, starts_append]
      have hlink := linkArea_spec areaSize h.single (hnodup _) (hfresh hne _)
        (starts_null hfirst)
      rw [hstart hne] at hlink ⊢
      exact hlink
    . rw [hlonger]
      apply linkArea_frame h.multi (hfresh hne _)
      intro hhead
      apply hdisjoint
      apply h.single.last_mem
      exact fun hnil => hhead ((h.single.first_null (starts_null hfirst)).mpr hnil)
    . exact hsizes _ areaSize hne (by rw [hone, Nat.one_mul]) size_linkArea
  next =>
    split
    next hmore =>
      have hne : s.runBlocks ≠ 0 := by omega
      have hones : ones (rs ++ s.openRun a) = ones rs := by
        have h1 : s.runBlocks ≠ 1 := by omega
        simp [ones, AreaScan.openRun, hne, h1]
      have hlonger : longer (rs ++ s.openRun a) = longer rs ++ [(a, s.runBlocks)] := by
        simp [longer, AreaScan.openRun, hne, hmore]
      constructor
      . rw [hones]
        apply linkArea_frame h.single (hfresh hne _)
        intro hhead
        apply List.disjoint_symm hdisjoint
        apply h.multi.last_mem
        exact fun hnil => hhead ((h.multi.first_null (starts_null hfirst)).mpr hnil)
      . rw [hlonger, starts_append]
        have hlink := linkArea_spec (s.runBlocks * areaSize) h.multi (hnodup _)
          (hfresh hne _) (starts_null hfirst)
        rw [hstart hne] at hlink ⊢
        exact hlink
      . exact hsizes _ _ hne rfl size_linkArea
    next =>
      have h0 : s.runBlocks = 0 := by omega
      have hnil : s.openRun a = [] := by
        simp [AreaScan.openRun, h0]
      rw [hnil, List.append_nil]
      exact h

/-- What the scan has found in front of a block: the runs that are closed, and the open one. -/
structure AreaScan.Holds (areaSize firstAreaPos : Nat) (p : Nat → Prop) (s : AreaScan) (i a : Nat)
    (rs : List (Nat × Nat)) : Prop where
  lists : s.Lists areaSize firstAreaPos rs
  runs : Runs p i (rs ++ s.openRun a)
  start : s.runBlocks ≠ 0 → s.runStart = firstAreaPos + a * areaSize
  upTo : s.runBlocks ≠ 0 → a + s.runBlocks = i
  last : s.runBlocks = 0 → i = 0 ∨ ¬p (i - 1)

theorem Runs.starts_lt {p : Nat → Prop} (h : Runs p n rs) : rs.Pairwise fun r r' => r.1 < r'.1 :=
  h.sorted.imp fun hlt => by omega

theorem AreaScan.Holds.init {p : Nat → Prop} :
    (AreaScan.init m).Holds areaSize firstAreaPos p 0 0 [] where
  lists := ⟨Chain.nil, Chain.nil, by simp⟩
  runs := Runs.nil
  start := fun hne => absurd rfl hne
  upTo := fun hne => absurd rfl hne
  last := fun _ => Or.inl rfl

/-- The block that comes next closes the open run or goes on with it. -/
theorem AreaScan.Holds.block
    (h : s.Holds areaSize firstAreaPos (fun j => firstAreaPos + j * areaSize ∉ occupied) i a rs)
    (hsize : 0 < areaSize) (hfirst : 0 < firstAreaPos) :
    ∃ a' rs', (s.block areaSize occupied (firstAreaPos + i * areaSize)).Holds areaSize firstAreaPos
      (fun j => firstAreaPos + j * areaSize ∉ occupied) (i + 1) a' rs' := by
  unfold AreaScan.block
  split
  next hmem =>
    have hclosed : (s.flushRun areaSize).openRun a = [] := by
      simp [AreaScan.openRun, AreaScan.flushRun_blocks]
    refine ⟨a, rs ++ s.openRun a, h.lists.flushRun hsize hfirst h.runs.starts_lt h.start, ?_, ?_,
      ?_, ?_⟩
    . rw [hclosed, List.append_nil]
      exact h.runs.skip (not_not.mpr hmem)
    . exact fun hne => absurd AreaScan.flushRun_blocks hne
    . exact fun hne => absurd AreaScan.flushRun_blocks hne
    . intro _
      right
      exact not_not.mpr hmem
  next hfree =>
    by_cases h0 : s.runBlocks = 0
    . refine ⟨i, rs, ⟨h.lists.single, h.lists.multi, h.lists.size⟩, ?_, ?_, ?_, ?_⟩
      . have hruns := h.runs
        have hnew : s.openRun a = [] := by
          simp [AreaScan.openRun, h0]
        rw [hnew, List.append_nil] at hruns
        simp only [AreaScan.openRun, h0]
        exact hruns.start hfree (h.last h0)
      . intro _
        simp [h0]
      . intro _
        simp [h0]
      . intro hne
        cases hne
    . refine ⟨a, rs, ⟨h.lists.single, h.lists.multi, h.lists.size⟩, ?_, ?_, ?_, ?_⟩
      . have hruns := h.runs
        unfold AreaScan.openRun at hruns ⊢
        rw [if_neg h0] at hruns
        rw [if_neg (Nat.succ_ne_zero _)]
        exact hruns.extend (h.upTo h0) hfree
      . intro _
        rw [if_neg h0]
        exact h.start h0
      . intro _
        rw [← Nat.add_assoc, h.upTo h0]
      . intro hne
        cases hne

theorem AreaScan.Holds.blocks (m : Areas) (occupied : Occupied) (hsize : 0 < areaSize)
    (hfirst : 0 < firstAreaPos) (n : Nat) :
    ∃ a rs, (((List.range n).map (firstAreaPos + · * areaSize)).foldl
      (AreaScan.block areaSize occupied) (AreaScan.init m)).Holds areaSize firstAreaPos
        (fun j => firstAreaPos + j * areaSize ∉ occupied) n a rs := by
  induction n with
  | zero => exact ⟨0, [], AreaScan.Holds.init⟩
  | succ n ih =>
    obtain ⟨a, rs, h⟩ := ih
    rw [List.range_succ, List.map_append, List.foldl_append]
    exact h.block hsize hfirst

/-- A block of the file that is not known to be occupied. -/
def FreeBlock (areaSize firstAreaPos fileSize : Nat) (occupied : Occupied) (b : Nat) : Prop :=
  (∃ i, b = firstAreaPos + i * areaSize) ∧ b + areaSize ≤ fileSize ∧ b ∉ occupied

/-- The pool holds an area for every run of free blocks: the runs of one block in the one list, the
longer runs in the other one. -/
structure Rebuilt (areaSize : Nat) (free : Nat → Prop) (r : Recovered) (singles multis : List Nat) :
    Prop where
  single : r.singleAreas.Holds r.areas singles
  multi : r.multiAreas.Holds r.areas multis
  null : 0 ∉ singles ++ multis
  ones : ∀ a ∈ singles, r.areas.size a = areaSize
  more : ∀ a ∈ multis, ∃ k, 1 < k ∧ r.areas.size a = k * areaSize
  apart : ((singles ++ multis).map r.areas.range).Pairwise Range.Apart
  cover : ∀ x, (∃ a ∈ singles ++ multis, (r.areas.range a).Has x) ↔
    ∃ b, free b ∧ b ≤ x ∧ x < b + areaSize
  whole : ∀ a ∈ singles ++ multis, ¬free (a + r.areas.size a) ∧ ∀ b, b + areaSize = a → ¬free b

/-- No run of free blocks is as long as 4 GiB, the size that an area cannot have. -/
def Fits (areaSize : Nat) (free : Nat → Prop) : Prop :=
  ∀ a k, (∀ j < k, free (a + j * areaSize)) → k * areaSize < 2 ^ 32

theorem index_lt (hsize : 0 < areaSize) : i < (fileSize - firstAreaPos) / areaSize ↔
    firstAreaPos + i * areaSize + areaSize ≤ fileSize := by
  rw [Nat.lt_iff_add_one_le, Nat.le_div_iff_mul_le hsize, Nat.succ_mul]
  omega

theorem freeBlock_index (hsize : 0 < areaSize) :
    FreeBlock areaSize firstAreaPos fileSize occupied (firstAreaPos + i * areaSize) ↔
      i < (fileSize - firstAreaPos) / areaSize ∧ firstAreaPos + i * areaSize ∉ occupied := by
  unfold FreeBlock
  rw [index_lt hsize]
  constructor
  . exact fun h => h.2
  . exact fun h => ⟨⟨i, rfl⟩, h⟩

/-- The areas of both lists are those of the runs. -/
theorem starts_perm (areaSize firstAreaPos : Nat) (rs : List (Nat × Nat)) :
    (starts areaSize firstAreaPos (ones rs) ++ starts areaSize firstAreaPos (longer rs)).Perm
      (starts areaSize firstAreaPos (rs.filter fun r => 0 < r.2)) := by
  rw [← starts_append]
  apply List.Perm.map
  unfold ones longer
  induction rs with
  | nil => exact List.Perm.nil
  | cons r rs ih =>
    rcases Nat.lt_trichotomy r.2 1 with h0 | h1 | hmore
    . have hne : r.2 ≠ 1 := by omega
      have hnot : ¬1 < r.2 := by omega
      have hnot' : ¬0 < r.2 := by omega
      simpa [hne, hnot, hnot'] using ih
    . simpa [h1] using ih.cons r
    . have hne : r.2 ≠ 1 := by omega
      have hpos : 0 < r.2 := by omega
      simp only [List.filter_cons, hne, hmore, hpos, decide_true, decide_false, if_true]
      exact List.perm_middle.trans (ih.cons r)

theorem AreaScan.Lists.rebuilt {p : Nat → Prop} {free : Nat → Prop} {r : Recovered}
    (h : s.Lists areaSize firstAreaPos rs) (hruns : Runs p n rs) (hsize : 0 < areaSize)
    (hfree : ∀ i, free (firstAreaPos + i * areaSize) ↔ i < n ∧ p i)
    (hgrid : ∀ b, free b → ∃ i, b = firstAreaPos + i * areaSize) (hfits : Fits areaSize free)
    (hfirst : 0 < firstAreaPos) (hareas : r.areas = s.areas)
    (hsingle : r.singleAreas.getHead = s.singleHead ∧ r.singleAreas.getTail = s.singleTail)
    (hmulti : r.multiAreas.getHead = s.multiHead ∧ r.multiAreas.getTail = s.multiTail) :
    Rebuilt areaSize free r (starts areaSize firstAreaPos (ones rs))
      (starts areaSize firstAreaPos (longer rs)) := by
  have hall : rs.filter (fun q => 0 < q.2) = rs := by
    rw [List.filter_eq_self]
    intro q hq
    exact decide_eq_true (hruns.pos q hq)
  have hperm := starts_perm areaSize firstAreaPos rs
  rw [hall] at hperm
  have hmem : ∀ a, a ∈ starts areaSize firstAreaPos (ones rs) ++
      starts areaSize firstAreaPos (longer rs) ↔ ∃ q ∈ rs, firstAreaPos + q.1 * areaSize = a := by
    intro a
    rw [hperm.mem_iff]
    exact List.mem_map
  have hlen : ∀ q ∈ rs, r.areas.size (firstAreaPos + q.1 * areaSize) = q.2 * areaSize := by
    intro q hq
    rw [hareas, h.size q hq, Nat.mod_eq_of_lt]
    apply hfits (firstAreaPos + q.1 * areaSize)
    intro j hj
    have hin := hruns.inside q hq (q.1 + j) (by omega) (by omega)
    have hfree' := (hfree (q.1 + j)).mpr ⟨hin.2, hin.1⟩
    rw [Nat.add_mul, ← Nat.add_assoc] at hfree'
    exact hfree'
  have hhas : ∀ q ∈ rs, ∀ x, (r.areas.range (firstAreaPos + q.1 * areaSize)).Has x ↔
      firstAreaPos + q.1 * areaSize ≤ x ∧ x < firstAreaPos + (q.1 + q.2) * areaSize := by
    intro q hq x
    unfold Range.Has Areas.range
    rw [hlen q hq, Nat.add_mul, Nat.add_assoc]
  constructor
  . unfold AreaList.Holds
    rw [hsingle.1, hsingle.2, hareas]
    exact h.single
  . unfold AreaList.Holds
    rw [hmulti.1, hmulti.2, hareas]
    exact h.multi
  . rw [hperm.mem_iff]
    exact starts_null hfirst
  . intro a ha
    unfold starts ones at ha
    rw [List.mem_map] at ha
    obtain ⟨q, hq, rfl⟩ := ha
    rw [List.mem_filter, decide_eq_true_eq] at hq
    rw [hlen q hq.1, hq.2, Nat.one_mul]
  . intro a ha
    unfold starts longer at ha
    rw [List.mem_map] at ha
    obtain ⟨q, hq, rfl⟩ := ha
    rw [List.mem_filter, decide_eq_true_eq] at hq
    exact ⟨q.2, hq.2, hlen q hq.1⟩
  . rw [(hperm.map r.areas.range).pairwise_iff fun h => Range.Apart.symm h]
    unfold starts
    rw [List.map_map, List.pairwise_map]
    apply hruns.sorted.imp_of_mem
    intro q q' hq hq' hlt x hx hx'
    rw [Function.comp_apply, hhas q hq] at hx
    rw [Function.comp_apply, hhas q' hq'] at hx'
    have hmul := Nat.mul_le_mul_right areaSize (Nat.le_of_lt hlt)
    omega
  . intro x
    constructor
    . rintro ⟨a, ha, hx⟩
      obtain ⟨q, hq, rfl⟩ := (hmem a).mp ha
      rw [hhas q hq] at hx
      have hdiv := Nat.div_add_mod (x - firstAreaPos) areaSize
      have hmod := Nat.mod_lt (x - firstAreaPos) hsize
      rw [Nat.mul_comm] at hdiv
      have hle : q.1 ≤ (x - firstAreaPos) / areaSize := by
        rw [Nat.le_div_iff_mul_le hsize]
        omega
      have hlt : (x - firstAreaPos) / areaSize < q.1 + q.2 := by
        rw [Nat.div_lt_iff_lt_mul hsize]
        omega
      have hin := hruns.inside q hq _ hle hlt
      refine ⟨_, (hfree _).mpr ⟨hin.2, hin.1⟩, ?_, ?_⟩
      . omega
      . omega
    . rintro ⟨b, hb, hle, hlt⟩
      obtain ⟨j, rfl⟩ := hgrid b hb
      obtain ⟨hj, hp⟩ := (hfree j).mp hb
      obtain ⟨q, hq, hle', hlt'⟩ := hruns.cover j hj hp
      refine ⟨_, (hmem _).mpr ⟨q, hq, rfl⟩, ?_⟩
      rw [hhas q hq]
      have hmul := Nat.mul_le_mul_right areaSize hle'
      have hmul' := Nat.mul_le_mul_right areaSize (Nat.succ_le_of_lt hlt')
      rw [Nat.succ_mul] at hmul'
      omega
  . intro a ha
    obtain ⟨q, hq, rfl⟩ := (hmem a).mp ha
    rw [hlen q hq, Nat.add_assoc, ← Nat.add_mul, hfree]
    constructor
    . rintro ⟨hlt, hp⟩
      rcases hruns.right q hq with hend | hnot
      . omega
      . exact hnot hp
    . intro b hb hfree'
      obtain ⟨j, rfl⟩ := hgrid b hfree'
      have heq : q.1 = j + 1 := by
        apply Nat.eq_of_mul_eq_mul_right hsize
        rw [Nat.succ_mul]
        omega
      rcases hruns.left q hq with h0 | hnot
      . omega
      . apply hnot
        rw [heq]
        exact ((hfree j).mp hfree').2

theorem rebuildPool_spec (hsize : 0 < areaSize) (hfirst : 0 < firstAreaPos)
    (hfits : Fits areaSize (FreeBlock areaSize firstAreaPos fileSize occupied)) :
    ∃ singles multis, Rebuilt areaSize (FreeBlock areaSize firstAreaPos fileSize occupied)
      (rebuildPool areaSize firstAreaPos fileSize m occupied) singles multis := by
  obtain ⟨a, rs, h⟩ := AreaScan.Holds.blocks m occupied hsize hfirst
    ((fileSize - firstAreaPos) / areaSize)
  have hlists := h.lists.flushRun hsize hfirst h.runs.starts_lt h.start
  have hends : ∀ head tail : Nat, (head = 0 ↔ tail = 0) →
      (if head = 0 then AreaList.init else AreaList.init.atomicSwitch head tail).getHead = head ∧
        (if head = 0 then AreaList.init
          else AreaList.init.atomicSwitch head tail).getTail = tail := by
    intro head tail hiff
    by_cases h0 : head = 0
    . rw [if_pos h0, hiff.mp h0, h0]
      exact ⟨rfl, rfl⟩
    . rw [if_neg h0, AreaList.getHead_atomicSwitch, AreaList.getTail_atomicSwitch]
      exact ⟨rfl, rfl⟩
  refine ⟨_, _, hlists.rebuilt h.runs hsize ?_ ?_ hfits hfirst rfl ?_ ?_⟩
  . intro i
    exact freeBlock_index hsize
  . exact fun b hb => hb.1
  . exact hends _ _ (hlists.single.first_null_iff (starts_null hfirst))
  . exact hends _ _ (hlists.multi.first_null_iff (starts_null hfirst))

end Scanning

/-- A file of five areas of 2 MiB: one database has an area of two blocks, the other one has two
areas, of which the first one lies in the middle of that area. -/
def overlapping : FileImage where
  areas := ⟨fun a => if a = 2097152 then ⟨4194304, 0⟩ else if a = 4194304 then ⟨2097152, 6291456⟩
    else if a = 6291456 then ⟨2097152, 0⟩ else ⟨0, 0⟩⟩
  areaListHeads := fun db => if db = 64 then (0, 2097152) else (4194304, 0)
  next_lt := by
    intro a
    unfold Areas.next
    dsimp only
    split
    . decide
    . split
      . decide
      . split <;> decide
  size_lt := by
    intro a
    unfold Areas.size
    dsimp only
    split
    . decide
    . split
      . decide
      . split <;> decide
  heads_lt := by
    intro db
    split <;> decide

end Leaves
