import Leaves.Storage.DirectoryCalls
import Mathlib.Data.List.Perm.Basic
import Mathlib.Data.List.Range
import Mathlib.Data.List.Nodup

/-!
What the loops over the entries do, and what becomes of the entries in use when an entry is written
or a page is extended.
-/

namespace Leaves
namespace Directory

variable {cap : Capacity} {d : Directory} {pages : List Nat}

/-- The entries that are visited, if these are the overflow pages. -/
def ptrs (cap : Capacity) (d : Directory) (pages : List Nat) : List EntryPtr :=
  firstPtrs cap d ++ pages.flatMap (pagePtrs cap d)

/-- An entry in use. -/
def lives (e : DBEntry) : List DBEntry := if e.offset ≠ 0 then [e] else []

def live (cap : Capacity) (d : Directory) (pages : List Nat) : List DBEntry :=
  (ptrs cap d pages).flatMap fun ptr => lives (d.entry ptr)

/-- The chain of the overflow pages, and nothing is in use outside of the counted entries. -/
structure WF (cap : Capacity) (d : Directory) (pages : List Nat) : Prop where
  head : d.dbNextPage = pages.headD 0
  linked : Linked (fun p => (d.pages p).next) pages 0
  nodup : pages.Nodup
  nonzero : 0 ∉ pages
  count_le : d.dbEntryCount ≤ cap.first
  full : pages ≠ [] → d.dbEntryCount = cap.first
  page_le : ∀ p ∈ pages, (d.pages p).count ≤ cap.page
  clear : ∀ i, d.dbEntryCount ≤ i → (d.dbs i).offset = 0
  page_clear : ∀ p ∈ pages, ∀ i, (d.pages p).count ≤ i → ((d.pages p).entries i).offset = 0

/-- What the well-formedness depends on. -/
theorem WF.congr {d' : Directory} (h : WF cap d pages) (hcount : d'.dbEntryCount = d.dbEntryCount)
    (hnext : d'.dbNextPage = d.dbNextPage) (hdbs : d'.dbs = d.dbs) (hpages : d'.pages = d.pages) :
    WF cap d' pages := by
  cases d
  cases d'
  dsimp only at hcount hnext hdbs hpages
  subst hcount hnext hdbs hpages
  exact ⟨h.head, h.linked, h.nodup, h.nonzero, h.count_le, h.full, h.page_le, h.clear,
    h.page_clear⟩

theorem wf_init (cap : Capacity) (fileSize : Nat) : WF cap (init fileSize) [] where
  head := rfl
  linked := trivial
  nodup := List.nodup_nil
  nonzero := List.not_mem_nil
  count_le := Nat.zero_le _
  full h := absurd rfl h
  page_le _ hp := absurd hp List.not_mem_nil
  clear _ _ := rfl
  page_clear _ hp := absurd hp List.not_mem_nil

/-! The loops. -/

section Visit

variable {σ : Type} (fn : EntryPtr → σ → σ × Bool)

theorem visit_append (l l' : List EntryPtr) (st : σ) :
    visit fn (l ++ l') st
      =
    if (visit fn l st).2 then visit fn l' (visit fn l st).1 else ((visit fn l st).1, false) := by
  induction l generalizing st with
  | nil => rfl
  | cons ptr l ih =>
    rw [List.cons_append, visit, visit]
    cases h : (fn ptr st).2 with
    | true => simp only [h, if_true, ih]
    | false => simp [h]

variable (cap d)

theorem walkPages_eq (hlinked : Linked (fun p => (d.pages p).next) pages 0)
    (hnonzero : 0 ∉ pages) {n : Nat} (hn : pages.length ≤ n) (st : σ) :
    walkPages cap d fn n (pages.headD 0) st
      =
    some (visit fn (pages.flatMap (pagePtrs cap d)) st).1 := by
  induction pages generalizing n st with
  | nil =>
    unfold walkPages
    rfl
  | cons p pages ih =>
    rw [List.mem_cons, not_or] at hnonzero
    rw [List.length_cons] at hn
    unfold walkPages
    rw [List.headD_cons, if_neg (Ne.symm hnonzero.1)]
    cases n with
    | zero => omega
    | succ n =>
      have hnext : (d.pages p).next = pages.headD 0 := hlinked.1
      dsimp only
      rw [List.flatMap_cons, visit_append, hnext]
      cases h : (visit fn (pagePtrs cap d p) st).2 with
      | true =>
        rw [if_pos rfl, if_pos rfl]
        exact ih hlinked.2 hnonzero.2 (by omega) _
      | false => simp

theorem forEachEntry_eq (h : WF cap d pages) {n : Nat} (hn : pages.length ≤ n) (st : σ) :
    forEachEntry cap d n fn st = some (visit fn (ptrs cap d pages) st).1 := by
  unfold forEachEntry ptrs
  dsimp only
  rw [visit_append, h.head]
  cases hgo : (visit fn (firstPtrs cap d) st).2 with
  | true =>
    rw [if_pos rfl, if_pos rfl]
    exact walkPages_eq cap d fn h.linked h.nonzero hn _
  | false => simp

end Visit

theorem visit_names (d : Directory) (l : List EntryPtr) (names : List Key) :
    visit (fun ptr names =>
        let e := d.entry ptr
        (if e.offset ≠ 0 then names ++ [e.name] else names, true)) l names
      =
    (names ++ (l.flatMap fun ptr => lives (d.entry ptr)).map DBEntry.name, true) := by
  induction l generalizing names with
  | nil => simp [visit]
  | cons ptr l ih =>
    rw [visit]
    dsimp only
    rw [if_pos rfl, ih, List.flatMap_cons, lives]
    by_cases h : (d.entry ptr).offset ≠ 0
    . rw [if_pos h, if_pos h]
      simp
    . rw [if_neg h, if_neg h]
      simp

/-- `list_dbs` gives the names of the entries in use. -/
theorem listDbs_eq (h : WF cap d pages) {n : Nat} (hn : pages.length ≤ n) :
    listDbs cap d n = some ((live cap d pages).map DBEntry.name) := by
  unfold listDbs
  rw [forEachEntry_eq cap d _ h hn, visit_names, List.nil_append]
  rfl

open Cache (match_)

/-- The entry is free. -/
def hole (d : Directory) (ptr : EntryPtr) : Bool := decide ((d.entry ptr).offset = 0)

theorem visit_seek (d : Directory) (name : Key) (l : List EntryPtr) :
    (visit (Mmap.seek d name) l none).1 = l.find? (match_ d name) := by
  induction l with
  | nil => rfl
  | cons ptr l ih =>
    rw [visit, List.find?_cons]
    unfold match_ Mmap.seek
    by_cases h : (d.entry ptr).offset ≠ 0 ∧ (d.entry ptr).name = name
    . simp [h]
    . rw [if_neg h, decide_eq_false h]
      exact ih

section Scan

variable (d) (name : Key) (ptr : EntryPtr) (st : Option EntryPtr × Option EntryPtr)

theorem scan_hole (h : (d.entry ptr).offset = 0) :
    Mmap.scan d name ptr st = ((if st.1.isNone then some ptr else st.1, st.2), true) :=
  if_neg (not_not_intro h)

theorem scan_found (h : (d.entry ptr).offset ≠ 0) (hname : (d.entry ptr).name = name) :
    Mmap.scan d name ptr st = ((st.1, some ptr), false) := by
  unfold Mmap.scan
  dsimp only
  rw [if_pos h, if_pos hname]

theorem scan_other (h : (d.entry ptr).offset ≠ 0) (hname : (d.entry ptr).name ≠ name) :
    Mmap.scan d name ptr st = (st, true) := by
  unfold Mmap.scan
  dsimp only
  rw [if_pos h, if_neg hname]

end Scan

/-- The entry with the name, and if there is none the first free one. -/
theorem visit_scan (d : Directory) (name : Key) (l : List EntryPtr) (free : Option EntryPtr) :
    (visit (Mmap.scan d name) l (free, none)).1.2 = l.find? (match_ d name) ∧
    (l.find? (match_ d name) = none →
      (visit (Mmap.scan d name) l (free, none)).1.1 = free.or (l.find? (hole d))) := by
  induction l generalizing free with
  | nil => simp [visit]
  | cons ptr l ih =>
    rw [visit, List.find?_cons, List.find?_cons]
    by_cases hoff : (d.entry ptr).offset = 0
    . have hnot : match_ d name ptr = false := decide_eq_false (fun h => h.1 hoff)
      have hhole : hole d ptr = true := decide_eq_true hoff
      have hrest := ih (if free.isNone then some ptr else free)
      rw [scan_hole d name ptr _ hoff, hnot, hhole]
      refine ⟨hrest.1, ?_⟩
      intro hnone
      have hfree := hrest.2 hnone
      dsimp only
      rw [if_pos rfl, hfree]
      cases free <;> rfl
    . have hhole : hole d ptr = false := decide_eq_false hoff
      rw [hhole]
      by_cases hname : (d.entry ptr).name = name
      . have hmatch : match_ d name ptr = true := decide_eq_true ⟨hoff, hname⟩
        rw [scan_found d name ptr _ hoff hname, hmatch]
        exact ⟨rfl, fun h => nomatch h⟩
      . have hnot : match_ d name ptr = false := decide_eq_false (fun h => hname h.2)
        rw [scan_other d name ptr _ hoff hname, hnot]
        exact ih free

theorem findInOverflowPages_eq (d : Directory) (name : Key)
    (hlinked : Linked (fun p => (d.pages p).next) pages 0) (hnonzero : 0 ∉ pages) {n : Nat}
    (hn : pages.length ≤ n) :
    Cache.findInOverflowPages cap d name n (pages.headD 0)
      =
    some ((pages.flatMap (pagePtrs cap d)).find? (match_ d name)) := by
  induction pages generalizing n with
  | nil =>
    unfold Cache.findInOverflowPages
    rfl
  | cons p pages ih =>
    rw [List.mem_cons, not_or] at hnonzero
    rw [List.length_cons] at hn
    unfold Cache.findInOverflowPages
    rw [List.headD_cons, if_neg (Ne.symm hnonzero.1)]
    cases n with
    | zero => omega
    | succ n =>
      have hnext : (d.pages p).next = pages.headD 0 := hlinked.1
      dsimp only
      rw [List.flatMap_cons, List.find?_append, hnext]
      cases h : (pagePtrs cap d p).find? (match_ d name) with
      | some ptr => rfl
      | none =>
        rw [Option.none_or]
        exact ih hlinked.2 hnonzero.2 (by omega)

/-- What the search for a place in the overflow pages finds. -/
theorem findPlace_eq (used : DirectoryPage → Nat)
    (hused : ∀ p ∈ pages, used (d.pages p) = min (d.pages p).count cap.page)
    (hlinked : Linked (fun p => (d.pages p).next) pages 0) (hnonzero : 0 ∉ pages)
    (hle : ∀ p ∈ pages, (d.pages p).count ≤ cap.page) {n : Nat} (hn : pages.length ≤ n)
    (last : Nat) :
    (∃ ptr, findPlace cap d used n (pages.headD 0) last = some (.hole ptr) ∧
      ptr ∈ pages.flatMap (pagePtrs cap d) ∧ (d.entry ptr).offset = 0) ∨
    (∃ p, findPlace cap d used n (pages.headD 0) last = some (.room p) ∧ p ∈ pages ∧
      (d.pages p).count < cap.page) ∨
    (findPlace cap d used n (pages.headD 0) last = some (.none (pages.getLastD last)) ∧
      ∀ p ∈ pages, (d.pages p).count = cap.page ∧
        ∀ ptr ∈ pagePtrs cap d p, (d.entry ptr).offset ≠ 0) := by
  induction pages generalizing n last with
  | nil =>
    right
    right
    unfold findPlace
    exact ⟨rfl, fun _ hp => absurd hp List.not_mem_nil⟩
  | cons p pages ih =>
    rw [List.mem_cons, not_or] at hnonzero
    rw [List.length_cons] at hn
    have hnext : (d.pages p).next = pages.headD 0 := hlinked.1
    unfold findPlace
    rw [List.headD_cons, if_neg (Ne.symm hnonzero.1)]
    cases n with
    | zero => omega
    | succ n =>
      dsimp only
      rw [hused p List.mem_cons_self, hnext]
      cases hfind : (List.range (min (d.pages p).count cap.page)).find? fun i =>
          ((d.pages p).entries i).offset = 0 with
      | some i =>
        left
        have hmem := List.mem_of_find?_eq_some hfind
        have hfree := List.find?_some hfind
        refine ⟨_, rfl, ?_, ?_⟩
        . rw [List.flatMap_cons, List.mem_append]
          exact Or.inl (List.mem_map_of_mem hmem)
        . exact of_decide_eq_true hfree
      | none =>
        dsimp only
        rw [List.find?_eq_none] at hfind
        by_cases hroom : (d.pages p).count < cap.page
        . rw [if_pos hroom]
          exact Or.inr (Or.inl ⟨p, rfl, List.mem_cons_self, hroom⟩)
        . rw [if_neg hroom]
          have hfull : (d.pages p).count = cap.page :=
            Nat.le_antisymm (hle p List.mem_cons_self) (Nat.not_lt.1 hroom)
          rcases ih (fun q hq => hused q (List.mem_cons_of_mem p hq)) hlinked.2 hnonzero.2
            (fun q hq => hle q (List.mem_cons_of_mem p hq)) (Nat.le_of_succ_le_succ hn) p with
            ⟨ptr, heq, hmem, hfree⟩ | ⟨q, heq, hq, hlt⟩ | ⟨heq, hall⟩
          . left
            refine ⟨ptr, heq, ?_, hfree⟩
            rw [List.flatMap_cons, List.mem_append]
            exact Or.inr hmem
          . exact Or.inr (Or.inl ⟨q, heq, List.mem_cons_of_mem p hq, hlt⟩)
          . right
            right
            refine ⟨?_, ?_⟩
            . rw [heq]
              cases pages <;> rfl
            . intro q hq
              rw [List.mem_cons] at hq
              rcases hq with rfl | hq
              . refine ⟨hfull, ?_⟩
                intro ptr hptr
                unfold pagePtrs at hptr
                rw [List.mem_map] at hptr
                obtain ⟨i, hi, rfl⟩ := hptr
                exact fun hzero => hfind i hi (decide_eq_true hzero)
              . exact hall q hq

/-! The entries and their places. -/

theorem mem_ptrs_first {i : Nat} (h : WF cap d pages) :
    EntryPtr.first i ∈ ptrs cap d pages ↔ i < d.dbEntryCount := by
  have hle := h.count_le
  unfold ptrs firstPtrs pagePtrs
  simp only [List.mem_append, List.mem_map, List.mem_range, EntryPtr.first.injEq,
    exists_eq_right, List.mem_flatMap, reduceCtorEq, and_false, exists_const, or_false]
  omega

theorem mem_ptrs_overflow {p i : Nat} (h : WF cap d pages) :
    EntryPtr.overflow p i ∈ ptrs cap d pages ↔ p ∈ pages ∧ i < (d.pages p).count := by
  unfold ptrs firstPtrs pagePtrs
  simp only [List.mem_append, List.mem_map, List.mem_range, reduceCtorEq, and_false, exists_const,
    false_or, List.mem_flatMap, EntryPtr.overflow.injEq]
  constructor
  . rintro ⟨q, hq, j, hj, rfl, rfl⟩
    exact ⟨hq, by omega⟩
  . rintro ⟨hp, hi⟩
    have hle := h.page_le p hp
    exact ⟨p, hp, i, by omega, rfl, rfl⟩

theorem nodup_ptrs (h : WF cap d pages) : (ptrs cap d pages).Nodup := by
  have hfirst : Function.Injective EntryPtr.first := fun i j hij => EntryPtr.first.inj hij
  have hover : ∀ p, Function.Injective (EntryPtr.overflow p) :=
    fun p i j hij => (EntryPtr.overflow.inj hij).2
  unfold ptrs firstPtrs
  rw [List.nodup_append]
  refine ⟨List.Nodup.map hfirst List.nodup_range, ?_, ?_⟩
  . rw [List.nodup_flatMap]
    refine ⟨fun p _ => List.Nodup.map (hover p) List.nodup_range, ?_⟩
    apply h.nodup.imp
    intro p q hne ptr hp hq
    unfold pagePtrs at hp hq
    rw [List.mem_map] at hp hq
    obtain ⟨i, -, rfl⟩ := hp
    obtain ⟨j, -, heq⟩ := hq
    rw [EntryPtr.overflow.injEq] at heq
    exact hne heq.1.symm
  . rintro a ha b hb rfl
    rw [List.mem_map] at ha
    obtain ⟨i, -, rfl⟩ := ha
    rw [List.mem_flatMap] at hb
    obtain ⟨p, -, hb⟩ := hb
    unfold pagePtrs at hb
    rw [List.mem_map] at hb
    obtain ⟨j, -, heq⟩ := hb
    cases heq

theorem entry_setEntry (d : Directory) (ptr q : EntryPtr) (e : DBEntry) :
    (d.setEntry ptr e).entry q = if q = ptr then e else d.entry q := by
  cases ptr with
  | first i =>
    cases q with
    | first j =>
      simp only [setEntry, entry, Function.update_apply, EntryPtr.first.injEq]
    | overflow p j => rfl
  | overflow page i =>
    cases q with
    | first j => rfl
    | overflow p j =>
      by_cases hp : p = page
      . subst hp
        simp only [setEntry, entry, Function.update_self, Function.update_apply,
          EntryPtr.overflow.injEq, true_and]
      . simp only [setEntry, entry, Function.update_of_ne hp, EntryPtr.overflow.injEq, hp,
          false_and, if_false]

theorem count_setEntry (d : Directory) (ptr : EntryPtr) (e : DBEntry) :
    (d.setEntry ptr e).dbEntryCount = d.dbEntryCount := by
  cases ptr <;> rfl

theorem pages_setEntry (d : Directory) (ptr : EntryPtr) (e : DBEntry) (p : Nat) :
    ((d.setEntry ptr e).pages p).count = (d.pages p).count ∧
    ((d.setEntry ptr e).pages p).next = (d.pages p).next := by
  cases ptr with
  | first i => exact ⟨rfl, rfl⟩
  | overflow page i =>
    unfold setEntry
    dsimp only
    by_cases hp : p = page
    . subst hp
      rw [Function.update_self]
      exact ⟨rfl, rfl⟩
    . rw [Function.update_of_ne hp]
      exact ⟨rfl, rfl⟩

theorem ptrs_setEntry (ptr : EntryPtr) (e : DBEntry) :
    ptrs cap (d.setEntry ptr e) pages = ptrs cap d pages := by
  unfold ptrs firstPtrs pagePtrs
  rw [count_setEntry]
  congr 1
  apply List.flatMap_congr
  intro p _
  rw [(pages_setEntry d ptr e p).1]

/-- The entries besides one. -/
theorem live_split (h : WF cap d pages) {ptr : EntryPtr} (hptr : ptr ∈ ptrs cap d pages) :
    ∃ others, (live cap d pages).Perm (lives (d.entry ptr) ++ others) ∧
      ∀ e, (live cap (d.setEntry ptr e) pages).Perm (lives e ++ others) := by
  obtain ⟨l, r, hsplit⟩ := List.append_of_mem hptr
  have hnodup := nodup_ptrs h
  rw [hsplit] at hnodup
  have hmove : ∀ d' : Directory, ptrs cap d' pages = l ++ ptr :: r →
      (∀ q ∈ l ++ r, d'.entry q = d.entry q) →
      (live cap d' pages).Perm
        (lives (d'.entry ptr) ++ (l ++ r).flatMap fun q => lives (d.entry q)) := by
    intro d' hptrs hentry
    unfold live
    rw [hptrs, List.flatMap_append, List.flatMap_cons, List.flatMap_append]
    have hl : (l.flatMap fun q => lives (d'.entry q)) = l.flatMap fun q => lives (d.entry q) := by
      apply List.flatMap_congr
      intro q hq
      rw [hentry q (List.mem_append_left _ hq)]
    have hr : (r.flatMap fun q => lives (d'.entry q)) = r.flatMap fun q => lives (d.entry q) := by
      apply List.flatMap_congr
      intro q hq
      rw [hentry q (List.mem_append_right _ hq)]
    rw [hl, hr]
    exact List.perm_append_comm_assoc _ _ _
  refine ⟨(l ++ r).flatMap fun q => lives (d.entry q), ?_, ?_⟩
  . exact hmove d hsplit (fun _ _ => rfl)
  . intro e
    have hmoved := hmove (d.setEntry ptr e) (by rw [ptrs_setEntry, hsplit]) (by
      intro q hq
      rw [entry_setEntry, if_neg]
      rintro rfl
      exact (List.nodup_cons.1 (List.perm_middle.nodup_iff.1 hnodup)).1 hq)
    rwa [entry_setEntry, if_pos rfl] at hmoved

/-- Writing an entry that is counted keeps the directory well-formed. -/
theorem WF.setEntry (h : WF cap d pages) {ptr : EntryPtr} (hptr : ptr ∈ ptrs cap d pages)
    (e : DBEntry) : WF cap (d.setEntry ptr e) pages where
  head := by
    rw [← h.head]
    cases ptr <;> rfl
  linked := h.linked.congr fun p _ => (pages_setEntry d ptr e p).2
  nodup := h.nodup
  nonzero := h.nonzero
  count_le := by
    rw [count_setEntry]
    exact h.count_le
  full := by
    rw [count_setEntry]
    exact h.full
  page_le := by
    intro p hp
    rw [(pages_setEntry d ptr e p).1]
    exact h.page_le p hp
  clear := by
    intro i hi
    rw [count_setEntry] at hi
    have heq := entry_setEntry d ptr (.first i) e
    rw [if_neg] at heq
    . exact (congrArg DBEntry.offset heq).trans (h.clear i hi)
    . rintro rfl
      rw [mem_ptrs_first h] at hptr
      omega
  page_clear := by
    intro p hp i hi
    rw [(pages_setEntry d ptr e p).1] at hi
    have heq := entry_setEntry d ptr (.overflow p i) e
    rw [if_neg] at heq
    . exact (congrArg DBEntry.offset heq).trans (h.page_clear p hp i hi)
    . rintro rfl
      rw [mem_ptrs_overflow h] at hptr
      omega

/-! A place for a new entry. -/

/-- The same entries are in use, and one more that is free can be written. -/
structure Reserved (cap : Capacity) (d : Directory) (pages : List Nat) (d' : Directory)
    (pages' : List Nat) (ptr : EntryPtr) : Prop where
  wf : WF cap d' pages'
  live : live cap d' pages' = live cap d pages
  mem : ptr ∈ ptrs cap d' pages'
  free : (d'.entry ptr).offset = 0
  dbTypeId : d'.dbTypeId = d.dbTypeId
  opened : d'.opened = d.opened

theorem lives_of_free {e : DBEntry} (h : e.offset = 0) : lives e = [] :=
  if_neg (not_not_intro h)

theorem reserved_hole (h : WF cap d pages) {ptr : EntryPtr} (hmem : ptr ∈ ptrs cap d pages)
    (hfree : (d.entry ptr).offset = 0) : Reserved cap d pages d pages ptr :=
  ⟨h, rfl, hmem, hfree, rfl, rfl⟩

theorem reserved_first (h : WF cap d pages) (hlt : d.dbEntryCount < cap.first) :
    Reserved cap d pages { d with dbEntryCount := d.dbEntryCount + 1 } pages
      (.first d.dbEntryCount) := by
  have hwf : WF cap { d with dbEntryCount := d.dbEntryCount + 1 } pages :=
    { h with
      count_le := hlt
      full := by
        intro hne
        have hfull := h.full hne
        omega
      clear := fun i hi => h.clear i (Nat.le_of_succ_le hi) }
  have hclear : (d.entry (.first d.dbEntryCount)).offset = 0 :=
    h.clear d.dbEntryCount (Nat.le_refl _)
  refine ⟨hwf, ?_, ?_, hclear, rfl, rfl⟩
  . have hptrs : firstPtrs cap { d with dbEntryCount := d.dbEntryCount + 1 } =
        firstPtrs cap d ++ [.first d.dbEntryCount] := by
      unfold firstPtrs
      dsimp only
      rw [Nat.min_eq_left (Nat.succ_le_of_lt hlt), Nat.min_eq_left (Nat.le_of_lt hlt),
        List.range_succ, List.map_append]
      rfl
    have hlives : lives (d.entry (.first d.dbEntryCount)) = [] := lives_of_free hclear
    unfold live ptrs
    rw [hptrs, List.flatMap_append, List.flatMap_append, List.flatMap_append,
      List.flatMap_singleton]
    change _ ++ lives (d.entry (.first d.dbEntryCount)) ++ _ = _
    rw [hlives, List.append_nil]
    rfl
  . rw [mem_ptrs_first hwf]
    exact Nat.lt_succ_self _

theorem count_extendPage (d : Directory) (p q : Nat) :
    ((d.extendPage p).pages q).count =
      if q = p then (d.pages q).count + 1 else (d.pages q).count := by
  unfold extendPage
  dsimp only
  by_cases hq : q = p
  . subst hq
    rw [Function.update_self, if_pos rfl]
  . rw [Function.update_of_ne hq, if_neg hq]

theorem next_extendPage (d : Directory) (p q : Nat) :
    ((d.extendPage p).pages q).next = (d.pages q).next ∧
    ((d.extendPage p).pages q).entries = (d.pages q).entries := by
  unfold extendPage
  dsimp only
  by_cases hq : q = p
  . subst hq
    rw [Function.update_self]
    exact ⟨rfl, rfl⟩
  . rw [Function.update_of_ne hq]
    exact ⟨rfl, rfl⟩

theorem entry_extendPage (d : Directory) (p : Nat) (ptr : EntryPtr) :
    (d.extendPage p).entry ptr = d.entry ptr := by
  cases ptr with
  | first i => rfl
  | overflow q i => exact congrFun (next_extendPage d p q).2 i

theorem reserved_page (h : WF cap d pages) {p : Nat} (hp : p ∈ pages)
    (hlt : (d.pages p).count < cap.page) :
    Reserved cap d pages (d.extendPage p) pages (.overflow p (d.pages p).count) := by
  have hwf : WF cap (d.extendPage p) pages :=
    { head := h.head
      linked := h.linked.congr fun q _ => (next_extendPage d p q).1
      nodup := h.nodup
      nonzero := h.nonzero
      count_le := h.count_le
      full := h.full
      page_le := by
        intro q hq
        have hle := h.page_le q hq
        rw [count_extendPage]
        split
        . next heq =>
          rw [heq]
          exact hlt
        . exact hle
      clear := h.clear
      page_clear := by
        intro q hq i hi
        rw [(next_extendPage d p q).2]
        rw [count_extendPage] at hi
        apply h.page_clear q hq i
        split at hi <;> omega }
  have hclear : (d.entry (.overflow p (d.pages p).count)).offset = 0 :=
    h.page_clear p hp _ (Nat.le_refl _)
  refine ⟨hwf, ?_, ?_, ?_, rfl, rfl⟩
  . unfold live ptrs
    simp only [entry_extendPage]
    rw [List.flatMap_append, List.flatMap_append, List.flatMap_assoc, List.flatMap_assoc]
    congr 1
    apply List.flatMap_congr
    intro q hq
    unfold pagePtrs
    rw [count_extendPage]
    by_cases hqp : q = p
    . subst hqp
      rw [if_pos rfl, Nat.min_eq_left (Nat.succ_le_of_lt hlt), Nat.min_eq_left (Nat.le_of_lt hlt),
        List.range_succ, List.map_append, List.flatMap_append]
      have hlives := lives_of_free hclear
      simp [hlives]
    . rw [if_neg hqp]
  . rw [mem_ptrs_overflow hwf, count_extendPage, if_pos rfl]
    exact ⟨hp, Nat.lt_succ_self _⟩
  . rw [entry_extendPage]
    exact hclear

/-- The pages after a new one is put behind the last one. -/
theorem pages_appendPage (d : Directory) {last new : Nat} (hne : last ≠ new) :
    ((d.appendPage last new).pages new = ⟨1, 0, noEntries⟩) ∧
    ∀ q, q ≠ new → ((d.appendPage last new).pages q).count = (d.pages q).count ∧
      ((d.appendPage last new).pages q).entries = (d.pages q).entries ∧
      ((d.appendPage last new).pages q).next =
        if q = last ∧ last ≠ 0 then new else (d.pages q).next := by
  unfold appendPage
  dsimp only
  by_cases hlast : last = 0
  . rw [if_pos hlast]
    refine ⟨Function.update_self .., ?_⟩
    intro q hq
    dsimp only
    rw [Function.update_of_ne hq, if_neg (fun h => h.2 hlast)]
    exact ⟨rfl, rfl, rfl⟩
  . rw [if_neg hlast]
    dsimp only
    refine ⟨?_, ?_⟩
    . rw [Function.update_of_ne (Ne.symm hne), Function.update_self]
    . intro q hq
      by_cases hql : q = last
      . subst hql
        rw [Function.update_self, Function.update_of_ne hq, if_pos ⟨rfl, hlast⟩]
        exact ⟨rfl, rfl, rfl⟩
      . rw [Function.update_of_ne hql, Function.update_of_ne hq, if_neg (fun h => hql h.1)]
        exact ⟨rfl, rfl, rfl⟩

theorem reserved_append (h : WF cap d pages) (hcount : d.dbEntryCount = cap.first) {new : Nat}
    (hnew : new ∉ pages) (hne : new ≠ 0) :
    Reserved cap d pages (d.appendPage (pages.getLastD 0) new) (pages ++ [new])
      (.overflow new 0) := by
  have hlast : pages.getLastD 0 ≠ new := by
    rcases List.eq_nil_or_concat' pages with rfl | ⟨l, b, rfl⟩
    . exact Ne.symm hne
    . rw [List.getLastD_concat]
      rintro rfl
      exact hnew (by simp)
  obtain ⟨hfresh, hold⟩ := pages_appendPage d hlast
  have hmem : ∀ q ∈ pages, q ≠ new := by
    rintro q hq rfl
    exact hnew hq
  have hfirst : (d.appendPage (pages.getLastD 0) new).dbs = d.dbs ∧
      (d.appendPage (pages.getLastD 0) new).dbEntryCount = d.dbEntryCount ∧
      (d.appendPage (pages.getLastD 0) new).dbTypeId = d.dbTypeId ∧
      (d.appendPage (pages.getLastD 0) new).opened = d.opened ∧
      (d.appendPage (pages.getLastD 0) new).dbNextPage =
        if pages.getLastD 0 = 0 then new else d.dbNextPage := by
    unfold appendPage
    dsimp only
    split <;> exact ⟨rfl, rfl, rfl, rfl, rfl⟩
  obtain ⟨hdbs, hcount', htypes, hopened, hhead⟩ := hfirst
  generalize hd : d.appendPage (pages.getLastD 0) new = d' at *
  have hwf : WF cap d' (pages ++ [new]) := by
    constructor
    . rw [hhead, h.head]
      rcases List.eq_nil_or_concat' pages with rfl | ⟨l, b, rfl⟩
      . rfl
      . have hb : b ≠ 0 := by
          rintro rfl
          exact h.nonzero (by simp)
        rw [List.getLastD_concat, if_neg hb]
        cases l <;> rfl
    . rw [Linked.append]
      constructor
      . have hlinked := h.linked
        rcases List.eq_nil_or_concat' pages with rfl | ⟨l, b, rfl⟩
        . trivial
        . have hb : b ≠ 0 := by
            rintro rfl
            exact h.nonzero (by simp)
          have hbl : b ∉ l := by
            have hnodup := h.nodup
            rw [List.nodup_append] at hnodup
            intro hbl
            exact hnodup.2.2 b hbl b (by simp) rfl
          apply (hlinked.redirect hbl new).congr
          intro q hq
          rw [(hold q (hmem q hq)).2.2, List.getLastD_concat, Function.update_apply]
          by_cases hqb : q = b
          . rw [if_pos ⟨hqb, hb⟩, if_pos hqb]
          . rw [if_neg (fun hand => hqb hand.1), if_neg hqb]
      . exact ⟨congrArg DirectoryPage.next hfresh, trivial⟩
    . rw [List.nodup_append]
      refine ⟨h.nodup, by simp, ?_⟩
      intro a ha b hb
      rw [List.mem_singleton] at hb
      rw [hb]
      exact hmem a ha
    . rw [List.mem_append, List.mem_singleton, not_or]
      exact ⟨h.nonzero, Ne.symm hne⟩
    . rw [hcount']
      exact h.count_le
    . intro _
      rw [hcount', hcount]
    . intro q hq
      rw [List.mem_append, List.mem_singleton] at hq
      rcases hq with hq | rfl
      . rw [(hold q (hmem q hq)).1]
        exact h.page_le q hq
      . rw [hfresh]
        exact cap.page_pos
    . intro i hi
      rw [hcount'] at hi
      rw [hdbs]
      exact h.clear i hi
    . intro q hq i hi
      rw [List.mem_append, List.mem_singleton] at hq
      rcases hq with hq | rfl
      . rw [(hold q (hmem q hq)).1] at hi
        rw [(hold q (hmem q hq)).2.1]
        exact h.page_clear q hq i hi
      . rw [hfresh]
        rfl
  have hfree : (d'.entry (.overflow new 0)).offset = 0 := by
    unfold entry
    dsimp only
    rw [hfresh]
    rfl
  refine ⟨hwf, ?_, ?_, hfree, htypes, hopened⟩
  . have hpage : pagePtrs cap d' new = [.overflow new 0] := by
      unfold pagePtrs
      rw [hfresh, Nat.min_eq_left (Nat.succ_le_of_lt cap.page_pos)]
      rfl
    have hlives := lives_of_free hfree
    unfold live ptrs
    rw [List.flatMap_append, List.flatMap_append, List.flatMap_append, List.flatMap_singleton,
      hpage, List.flatMap_append, List.flatMap_singleton, hlives, List.append_nil,
      List.flatMap_assoc, List.flatMap_assoc]
    congr 1
    . unfold firstPtrs
      rw [hcount']
      apply List.flatMap_congr
      intro ptr hptr
      rw [List.mem_map] at hptr
      obtain ⟨i, -, rfl⟩ := hptr
      unfold entry
      rw [hdbs]
    . apply List.flatMap_congr
      intro q hq
      unfold pagePtrs
      rw [(hold q (hmem q hq)).1]
      apply List.flatMap_congr
      intro ptr hptr
      rw [List.mem_map] at hptr
      obtain ⟨i, -, rfl⟩ := hptr
      unfold entry
      dsimp only
      rw [(hold q (hmem q hq)).2.1]
  . rw [mem_ptrs_overflow hwf, hfresh]
    exact ⟨by simp, Nat.one_pos⟩

end Directory
end Leaves
