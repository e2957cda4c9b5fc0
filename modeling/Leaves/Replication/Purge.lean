import Leaves.Db.Sweep
import Leaves.Replication.Deletions

/-!
The purge job of `replication/_replication_db.hpp`: a cursor goes through the deletion trie and
removes the tombstones that are too old, then the next run is scheduled.
-/

namespace Leaves

open Cursor (Faces)

namespace Purge

/-- The time of a tombstone, if the value is big enough for one. -/
def time? (v : Value) : Option Nat := if 8 ≤ v.bytes.length then some (timestamp v) else none

/-- The variables of the loop. -/
structure Sweep where
  heap : Heap
  cursor : Cursor
  purged : Nat
  oldestTs : Nat
  interrupted : Bool

def keepOldest (oldestTs ts : Nat) : Nat := if oldestTs = 0 ∨ ts < oldestTs then ts else oldestTs

/-- The body of the loop for the value that the cursor shows. -/
def visit (olderThan : Nat) (val : Value) (st : Sweep) : Except Fault Sweep :=
  match time? val with
  | some ts =>
    if ts ≤ olderThan then
      (st.cursor.remove st.heap).map fun r =>
        { st with heap := r.1, cursor := r.2, purged := st.purged + 1 }
    else
      .ok { st with
        cursor := st.cursor.next st.heap.rd
        oldestTs := keepOldest st.oldestTs ts }
  | none => .ok { st with cursor := st.cursor.next st.heap.rd }

/--
The loop of `_do_purge` from its round `k` on, at most `n` rounds of it. `busy` is what
`_purge_interrupt` says in each round.
-/
def loop (olderThan : Nat) (busy : Nat → Bool) : Nat → Nat → Sweep → Option (Except Fault Sweep)
  | 0, _, _ => none
  | n + 1, k, st =>
    match st.cursor.shown? st.heap.rd with
    | none => some (.ok st)
    | some (_, val) =>
      if busy k then
        some (.ok { st with interrupted := true })
      else
        match visit olderThan val st with
        | .ok st => loop olderThan busy n (k + 1) st
        | .error e => some (.error e)

/-- `PurgeResult` -/
structure Result where
  purged : Nat
  oldestRemainingTs : Nat

/-- What a run of the job depends on: the clock, the retention, the oldest transaction that is read,
and what the other threads store in `_purge_interrupt` and `_purge_cancelled`. -/
structure Job where
  now : UInt64
  retention : UInt64
  reader : Nat
  busy : Nat → Bool
  cancelled : Bool

namespace Job

variable (job : Job)

def olderThan : Nat :=
  if job.retention.toNat < job.now.toNat then job.now.toNat - job.retention.toNat else 0

/-- The transaction of the job, with a new cursor on the first tombstone. -/
def start (h : Heap) (root : Addr) : Sweep :=
  let h := h.nextTransaction job.reader
  ⟨h, (Cursor.init root).first h.rd, 0, 0, false⟩

/-- `_do_purge` -/
def doPurge (n : Nat) (h : Heap) (root : Addr) : Option (Except Fault (Sweep × Result)) :=
  if root = 0 then
    some (.ok (⟨h, Cursor.init root, 0, 0, false⟩, ⟨0, 0⟩))
  else
    (loop job.olderThan job.busy n 0 (job.start h root)).map fun r => r.map fun st =>
      let oldestTs :=
        if st.interrupted ∧ st.oldestTs = 0 ∧ 0 < st.purged then
          if 0 < job.olderThan then job.olderThan else 1
        else
          st.oldestTs
      (st, ⟨st.purged, oldestTs⟩)

def nextSeconds (result : Result) : Nat :=
  if 0 < result.oldestRemainingTs then
    let expireAt := (result.oldestRemainingTs + job.retention.toNat) % 2 ^ 64
    if job.now.toNat < expireAt then expireAt - job.now.toNat else 0
  else
    job.retention.toNat

end Job

/-- The deletion trie after a run, and the seconds until the next one. -/
structure Run where
  heap : Heap
  root : Addr
  purged : Nat
  interrupted : Bool
  next : Option Nat

/-- `_run_purge` -/
def Job.runPurge (job : Job) (n : Nat) (h : Heap) (root : Addr) : Option (Except Fault Run) :=
  (job.doPurge n h root).map fun r => r.map fun (st, result) =>
    { heap := st.heap
      root := st.cursor.root
      purged := result.purged
      interrupted := st.interrupted
      next := if job.cancelled then none else some (job.nextSeconds result) }

/-! What a pass over the entries comes to. -/

def expired (olderThan : Nat) (e : Key × Value) : Bool :=
  match time? e.2 with
  | some ts => ts ≤ olderThan
  | none => false

def kept (olderThan : Nat) (e : Key × Value) : Bool := !expired olderThan e

def times (es : List (Key × Value)) : List Nat := es.filterMap fun e => time? e.2

/-- The entries that are visited from round `k` on. -/
def visited (busy : Nat → Bool) : Nat → List (Key × Value) → List (Key × Value)
  | _, [] => []
  | k, e :: es => if busy k then [] else e :: visited busy (k + 1) es

/-- The entries that an interruption leaves. -/
def unvisited (busy : Nat → Bool) : Nat → List (Key × Value) → List (Key × Value)
  | _, [] => []
  | k, e :: es => if busy k then e :: es else unvisited busy (k + 1) es

/--
The entries that the cursor comes to. Where it removes the empty key, and the other keys do not all
start with the same byte, it leaves those behind that start with the branch key of a new cursor.
-/
def reached (olderThan : Nat) : List (Key × Value) → List (Key × Value)
  | [] => []
  | e :: es =>
    if e.1 = [] ∧ expired olderThan e ∧ Cursor.Spread es then
      e :: es.filter fun x => x.1.head? ≠ some 0
    else
      e :: es

/-- No leaf that a removal of the loop writes is bigger than a page. -/
def fits (olderThan : Nat) (busy : Nat → Bool) : Nat → Nat → Sweep → Bool
  | 0, _, _ => true
  | n + 1, k, st =>
    match st.cursor.shown? st.heap.rd with
    | none => true
    | some e =>
      busy k || ((kept olderThan e || Cursor.removeFits st.heap.rd st.cursor.stack) &&
        match visit olderThan e.2 st with
        | .ok st => fits olderThan busy n (k + 1) st
        | .error _ => true)

section Loop

variable {olderThan : Nat} {busy : Nat → Bool} {st : Sweep} {o : List Addr}
  {l es : List (Key × Value)} {e : Key × Value} {m : Trie}

theorem visit_eq_remove (st : Sweep) (hexpired : expired olderThan e = true) :
    visit olderThan e.2 st = (st.cursor.remove st.heap).map fun r =>
      { st with heap := r.1, cursor := r.2, purged := st.purged + 1 } := by
  unfold expired at hexpired
  unfold visit
  split at hexpired
  . rw [decide_eq_true_eq] at hexpired
    exact if_pos hexpired
  . cases hexpired

/-- A round that removes the tombstone. -/
theorem visit_expired (hf : Faces st.heap st.cursor o l (e :: es) m)
    (hexpired : expired olderThan e = true)
    (hok : Cursor.removeOk st.heap.rd st.cursor st.cursor.stack = true) :
    (Cursor.removeFits st.heap.rd st.cursor.stack = true ∧
      ∃ h' c' m', visit olderThan e.2 st =
          .ok { st with heap := h', cursor := c', purged := st.purged + 1 } ∧
        Faces h' c' o l es m') ∨
    (Cursor.removeFits st.heap.rd st.cursor.stack = false ∧
      ∃ fault, visit olderThan e.2 st = .error fault) := by
  have hremove := hf.remove
  rw [visit_eq_remove st hexpired]
  rw [Cursor.Outcome] at hremove
  split at hremove
  . next hfits =>
    obtain ⟨h', c', m', heq, hfaces⟩ := hremove
    rw [heq]
    exact Or.inl ⟨hfits, h', c', m', rfl, hfaces hok⟩
  . next hfits =>
    rw [hremove]
    exact Or.inr ⟨Bool.eq_false_iff.mpr hfits, _, rfl⟩

/-- A round that keeps the entry. -/
theorem visit_eq_next (st : Sweep) (hkept : expired olderThan e = false) :
    visit olderThan e.2 st = .ok { st with
      cursor := st.cursor.next st.heap.rd
      oldestTs := (times [e]).foldl keepOldest st.oldestTs } := by
  unfold expired at hkept
  unfold visit times
  rw [List.filterMap_cons]
  split at hkept
  . next ts htime =>
    rw [decide_eq_false_iff_not] at hkept
    rw [if_neg hkept, htime]
    rfl
  . next htime =>
    rw [htime]
    rfl

/-- The entries `vs` have been visited from the state `st` on, the entries `us` are left. -/
structure Swept (olderThan : Nat) (o : List Addr) (l vs us : List (Key × Value)) (st st' : Sweep)
    (m : Trie) : Prop where
  faces : Faces st'.heap st'.cursor o (l ++ vs.filter (kept olderThan)) us m
  purged : st'.purged = st.purged + (vs.filter (expired olderThan)).length
  oldestTs : st'.oldestTs = (times (vs.filter (kept olderThan))).foldl keepOldest st.oldestTs
  interrupted : st'.interrupted = (st.interrupted || !us.isEmpty)

theorem Swept.cons_expired {st1 st' : Sweep} {vs us : List (Key × Value)}
    (h : Swept olderThan o l vs us st1 st' m) (hexpired : expired olderThan e = true)
    (hpurged : st1.purged = st.purged + 1) (holdest : st1.oldestTs = st.oldestTs)
    (hinterrupted : st1.interrupted = st.interrupted) :
    Swept olderThan o l (e :: vs) us st st' m := by
  have hkept : ¬kept olderThan e = true := by
    unfold kept
    rw [hexpired]
    decide
  constructor
  . rw [List.filter_cons_of_neg hkept]
    exact h.faces
  . rw [List.filter_cons_of_pos hexpired, h.purged, hpurged, List.length_cons]
    omega
  . rw [List.filter_cons_of_neg hkept, h.oldestTs, holdest]
  . rw [h.interrupted, hinterrupted]

theorem Swept.cons_kept {st1 st' : Sweep} {vs us : List (Key × Value)}
    (h : Swept olderThan o (l ++ [e]) vs us st1 st' m) (hkept : expired olderThan e = false)
    (hpurged : st1.purged = st.purged)
    (holdest : st1.oldestTs = (times [e]).foldl keepOldest st.oldestTs)
    (hinterrupted : st1.interrupted = st.interrupted) :
    Swept olderThan o l (e :: vs) us st st' m := by
  have hpos : kept olderThan e = true := by
    unfold kept
    rw [hkept]
    rfl
  have hneg : ¬expired olderThan e = true := by
    rw [hkept]
    decide
  constructor
  . rw [List.filter_cons_of_pos hpos, List.append_cons]
    exact h.faces
  . rw [List.filter_cons_of_neg hneg, h.purged, hpurged]
  . have htimes : times (e :: vs.filter (kept olderThan)) =
        times [e] ++ times (vs.filter (kept olderThan)) := by
      unfold times
      rw [← List.filterMap_append, List.singleton_append]
    rw [List.filter_cons_of_pos hpos, htimes, List.foldl_append, h.oldestTs, holdest]
  . rw [h.interrupted, hinterrupted]

/-- What comes of the rounds from `k` on. -/
def Sweeps (olderThan : Nat) (busy : Nat → Bool) (n k : Nat) (o : List Addr)
    (l es : List (Key × Value)) (st : Sweep) : Prop :=
  (fits olderThan busy n k st = true ∧
    ∃ st' m, loop olderThan busy n k st = some (.ok st') ∧
      Swept olderThan o l (visited busy k es) (unvisited busy k es) st st' m) ∨
  (fits olderThan busy n k st = false ∧
    ∃ fault, loop olderThan busy n k st = some (.error fault))

/-- The loop from an entry on whose removal leads to the next one. -/
theorem loop_sweeps {n k : Nat} (hf : Faces st.heap st.cursor o l es m) (hn : es.length < n)
    (hok : ∀ e ∈ es.head?, expired olderThan e = true →
      Cursor.removeOk st.heap.rd st.cursor st.cursor.stack = true) :
    Sweeps olderThan busy n k o l es st := by
  induction n generalizing k l es st m with
  | zero => cases hn
  | succ n ih =>
    unfold Sweeps
    cases es with
    | nil =>
      have hshown := hf.shown
      rw [fits, loop, hshown]
      refine Or.inl ⟨rfl, st, m, rfl, ?_, rfl, rfl, ?_⟩
      . rw [visited, List.filter_nil, List.append_nil]
        exact hf
      . exact (Bool.or_false _).symm
    | cons e es =>
      have hshown := hf.shown
      rw [fits, loop, hshown, visited, unvisited, List.head?_cons]
      dsimp only
      by_cases hbusy : busy k = true
      . rw [if_pos hbusy, if_pos hbusy, if_pos hbusy, hbusy]
        refine Or.inl ⟨rfl, _, m, rfl, ?_, rfl, rfl, ?_⟩
        . rw [List.filter_nil, List.append_nil]
          exact hf
        . exact (Bool.or_true _).symm
      . rw [if_neg hbusy, if_neg hbusy, if_neg hbusy, Bool.eq_false_iff.mpr hbusy, Bool.false_or]
        have hlen : es.length < n := Nat.lt_of_succ_lt_succ hn
        have hnext : ∀ st' l' m', Faces st'.heap st'.cursor o l' es m' →
            Sweeps olderThan busy n (k + 1) o l' es st' := by
          intro st' l' m' hf'
          apply ih hf' hlen
          intro x hx _
          obtain ⟨rest, rfl⟩ : ∃ rest, es = x :: rest := by
            rw [Option.mem_def, List.head?_eq_some_iff] at hx
            exact hx
          apply hf'.removeOk
          intro hnil
          have hlt := hf.ascending.around.2 x List.mem_cons_self
          rw [hnil] at hlt
          exact absurd hlt (List.not_lt_nil e.1)
        cases hexpired : expired olderThan e with
        | true =>
          have hkept : kept olderThan e = false := by rw [kept, hexpired]; rfl
          rw [hkept, Bool.false_or]
          rcases visit_expired hf hexpired (hok e rfl hexpired) with
            ⟨hfits, h', c', m', hvisit, hfaces⟩ | ⟨hfits, fault, hvisit⟩
          . rw [hfits, hvisit, Bool.true_and]
            dsimp only
            rcases hnext { st with heap := h', cursor := c', purged := st.purged + 1 } l m'
              hfaces with ⟨hrest, st', m'', hloop, hswept⟩ | herror
            . exact Or.inl ⟨hrest, st', m'', hloop, hswept.cons_expired hexpired rfl rfl rfl⟩
            . exact Or.inr herror
          . rw [hfits, hvisit, Bool.false_and]
            exact Or.inr ⟨rfl, fault, rfl⟩
        | false =>
          have hkept : kept olderThan e = true := by rw [kept, hexpired]; rfl
          rw [hkept, visit_eq_next st hexpired, Bool.true_or, Bool.true_and]
          dsimp only
          rcases hnext { st with
              cursor := st.cursor.next st.heap.rd
              oldestTs := (times [e]).foldl keepOldest st.oldestTs } _ m hf.next with
            ⟨hrest, st', m'', hloop, hswept⟩ | herror
          . exact Or.inl ⟨hrest, st', m'', hloop, hswept.cons_kept hexpired rfl rfl rfl⟩
          . exact Or.inr herror

theorem visited_append_unvisited (busy : Nat → Bool) (k : Nat) (es : List (Key × Value)) :
    visited busy k es ++ unvisited busy k es = es := by
  induction es generalizing k with
  | nil => rfl
  | cons e es ih =>
    rw [visited, unvisited]
    split
    . rfl
    . rw [List.cons_append, ih]

/-- What the loop leaves of the entries `es`, of which it has visited `vs`. -/
structure Cleared (olderThan : Nat) (o : List Addr) (es vs us : List (Key × Value)) (st : Sweep)
    (m : Trie) : Prop where
  stores : st.heap.Stores m o
  root : st.cursor.root = m.root
  entries : m.entries = es.filter fun e => !(decide (e ∈ vs) && expired olderThan e)
  purged : st.purged = (vs.filter (expired olderThan)).length
  oldestTs : st.oldestTs = (times (vs.filter (kept olderThan))).foldl keepOldest 0
  interrupted : st.interrupted = !us.isEmpty

theorem Swept.cleared {st' : Sweep} {vs us : List (Key × Value)}
    (h : Swept olderThan o l vs us st st' m) (hstart : st.purged = 0 ∧ st.oldestTs = 0 ∧
      st.interrupted = false) (hasc : OrdMap.Ascending es) (hperm : (l ++ vs ++ us).Perm es) :
    Cleared olderThan o es vs us st' m := by
  obtain ⟨hpurged, holdest, hinterrupted⟩ := hstart
  have hnodup := hperm.nodup_iff.mpr hasc.nodup
  rw [List.nodup_append, List.nodup_append] at hnodup
  obtain ⟨⟨-, -, hlvs⟩, -, hus⟩ := hnodup
  constructor
  . exact h.faces.stores
  . exact h.faces.placed.root
  . apply OrdMap.Ascending.ext h.faces.stores.valid.ascending
    . exact List.Pairwise.filter _ hasc
    . intro e
      have hl : e ∈ l → e ∉ vs := fun hel hev => hlvs e hel e hev rfl
      have hu : e ∈ us → e ∉ vs :=
        fun heu hev => hus e (List.mem_append_right _ hev) e heu rfl
      rw [h.faces.entries, List.mem_filter, ← hperm.mem_iff, List.mem_append, List.mem_append,
        List.mem_append, List.mem_append, List.mem_filter, kept]
      by_cases hev : e ∈ vs
      . rw [decide_eq_true hev, Bool.true_and]
        tauto
      . rw [decide_eq_false hev, Bool.false_and]
        tauto
  . rw [h.purged, hpurged, Nat.zero_add]
  . rw [h.oldestTs, holdest]
  . rw [h.interrupted, hinterrupted, Bool.false_or]

/-- What comes of the whole loop. -/
def Clears (olderThan : Nat) (busy : Nat → Bool) (n : Nat) (o : List Addr)
    (es : List (Key × Value)) (st : Sweep) : Prop :=
  (fits olderThan busy n 0 st = true ∧
    ∃ st' m, loop olderThan busy n 0 st = some (.ok st') ∧
      Cleared olderThan o es (visited busy 0 (reached olderThan es))
        (unvisited busy 0 (reached olderThan es)) st' m) ∨
  (fits olderThan busy n 0 st = false ∧
    ∃ fault, loop olderThan busy n 0 st = some (.error fault))

theorem Sweeps.clears {n : Nat} (h : Sweeps olderThan busy n 0 o [] es st)
    (hstart : st.purged = 0 ∧ st.oldestTs = 0 ∧ st.interrupted = false)
    (hasc : OrdMap.Ascending es) (hreached : reached olderThan es = es) :
    Clears olderThan busy n o es st := by
  unfold Clears
  rw [hreached]
  rcases h with ⟨hfits, st', m, hloop, hswept⟩ | herror
  . left
    refine ⟨hfits, st', m, hloop, hswept.cleared hstart hasc ?_⟩
    rw [List.nil_append, visited_append_unvisited]
  . exact Or.inr herror

theorem filter_skipped (hnil : ∀ x ∈ es, x.1 ≠ []) :
    es.filter (fun x => x.1.head? ≠ some 0) = es.filter (fun x => !Cursor.atMost 0 x) := by
  apply List.filter_congr
  intro x hx
  obtain ⟨b, w, hkey⟩ := List.exists_cons_of_ne_nil (hnil x hx)
  unfold Cursor.atMost
  rw [hkey, List.head?_cons, Branch.toInt_some, Branch.toInt_some]
  by_cases hb : b = 0
  . subst hb
    decide
  . have hpos : b.toNat ≠ 0 := fun h => hb (UInt8.toNat_inj.mp h)
    simp [hb]
    omega

/-- The first round removes the empty key, and the cursor leaves others behind. -/
theorem loop_clears_stale {n : Nat} {v : Value}
    (hf : Faces st.heap st.cursor o [] (([], v) :: es) m) (hn : es.length < n)
    (hstart : st.purged = 0 ∧ st.oldestTs = 0 ∧ st.interrupted = false)
    (hkey : st.cursor.branchKey 0 = 0) (hexpired : expired olderThan ([], v) = true)
    (hspread : Cursor.Spread es) :
    Clears olderThan busy (n + 1) o (([], v) :: es) st := by
  have hasc : OrdMap.Ascending (([], v) :: es) := hf.ascending
  have hnil : ∀ x ∈ es, x.1 ≠ [] := by
    intro x hx heq
    have hlt : ([] : Key) < x.1 := (OrdMap.ascending_cons.mp hasc).1 x hx
    rw [heq] at hlt
    exact absurd hlt (List.not_lt_nil [])
  have hshown := hf.shown
  have hkept : kept olderThan ([], v) = false := by rw [kept, hexpired]; rfl
  obtain ⟨hfits, h', c', m', hremove, hfaces⟩ := hf.remove_emptyKey hspread
  unfold Clears
  rw [reached, if_pos ⟨rfl, hexpired, hspread⟩, filter_skipped hnil, fits, loop, hshown, visited,
    unvisited, List.head?_cons]
  dsimp only
  by_cases hbusy : busy 0 = true
  . rw [if_pos hbusy, if_pos hbusy, if_pos hbusy, hbusy]
    refine Or.inl ⟨rfl, _, m, rfl, hf.stores, hf.placed.root, ?_, ?_, ?_, rfl⟩
    . rw [hf.entries]
      simp
    . exact hstart.1
    . exact hstart.2.1
  . rw [if_neg hbusy, if_neg hbusy, if_neg hbusy, Bool.eq_false_iff.mpr hbusy, Bool.false_or, hkept,
      hfits, visit_eq_remove (e := ([], v)) st hexpired, hremove]
    rw [hkey] at hfaces
    have hlen : (es.filter fun x => !Cursor.atMost 0 x).length < n :=
      Nat.lt_of_le_of_lt (List.length_filter_le _ _) hn
    have hsweeps : Sweeps olderThan busy n 1 o (es.filter (Cursor.atMost 0))
        (es.filter fun x => !Cursor.atMost 0 x)
        { st with heap := h', cursor := c', purged := st.purged + 1 } := by
      apply loop_sweeps hfaces hlen
      intro x hx _
      rw [Option.mem_def, List.head?_eq_some_iff] at hx
      obtain ⟨rest, hrest⟩ := hx
      rw [hrest] at hfaces
      apply hfaces.removeOk
      apply hnil
      have hmem : x ∈ es.filter fun x => !Cursor.atMost 0 x := by
        rw [hrest]
        exact List.mem_cons_self
      exact List.mem_of_mem_filter hmem
    rcases hsweeps with ⟨hrest, st', m'', hloop, hswept⟩ | herror
    . left
      have hcons : Swept olderThan o (es.filter (Cursor.atMost 0)) (([], v) :: _) _ st st' m'' :=
        hswept.cons_expired hexpired rfl rfl rfl
      refine ⟨hrest, st', m'', hloop, hcons.cleared hstart hasc ?_⟩
      rw [List.append_assoc, List.cons_append, visited_append_unvisited]
      apply List.perm_middle.trans
      exact (List.filter_append_perm _ es).cons _
    . exact Or.inr herror

/-- The loop from the first entry on, with a new cursor. -/
theorem start_clears {h : Heap} {n : Nat} (hs : h.Stores m o) (hshallow : m.Shallow)
    (hn : m.entries.length < n) :
    Clears olderThan busy n o m.entries ⟨h, (Cursor.init m.root).first h.rd, 0, 0, false⟩ := by
  have hf := Cursor.faces_first hs hshallow
  have hasc := hs.valid.ascending
  match hes : m.entries with
  | [] =>
    rw [hes] at hf hn hasc
    apply Sweeps.clears (loop_sweeps hf hn _) ⟨rfl, rfl, rfl⟩ hasc rfl
    intro e he
    cases he
  | (k, v) :: es =>
    rw [hes] at hf hn hasc
    by_cases hstale : k = [] ∧ expired olderThan (k, v) = true ∧ Cursor.Spread es
    . obtain ⟨rfl, hexpired, hspread⟩ := hstale
      obtain ⟨n, rfl⟩ : ∃ n', n = n' + 1 := Nat.exists_eq_succ_of_ne_zero (by omega)
      have hkey := Cursor.branchKey_first_init hf.shown
      exact loop_clears_stale hf (Nat.lt_of_succ_lt_succ hn) ⟨rfl, rfl, rfl⟩ hkey hexpired hspread
    . apply Sweeps.clears (loop_sweeps hf hn _) ⟨rfl, rfl, rfl⟩ hasc
      . rw [reached, if_neg hstale]
      . rintro _ ⟨rfl⟩ hexpired
        by_cases hk : k = []
        . subst hk
          exact hf.removeOk_emptyKey fun hspread => hstale ⟨rfl, hexpired, hspread⟩
        . exact hf.removeOk hk

/-- No removal throws where every leaf has room for as much of its key as a leaf can have. -/
theorem fits_of_small {n k : Nat} (hs : st.heap.Stores m o) (hshallow : m.Shallow)
    (hc : st.cursor.Placed m) (hsmall : ∀ e ∈ m.entries, Cursor.Small e) :
    fits olderThan busy n k st = true := by
  induction n generalizing k st m with
  | zero => rfl
  | succ n ih =>
    rw [fits]
    cases hshown : st.cursor.shown? st.heap.rd with
    | none => rfl
    | some e =>
      dsimp only
      have hfits := hc.removeFits_of_small hs hshown hsmall
      rw [hfits, Bool.or_true, Bool.true_and]
      apply Bool.or_eq_true_iff.mpr
      right
      cases hexpired : expired olderThan e with
      | true =>
        have hout := Cursor.remove_shown hs hshallow hc hshown
        rw [Cursor.Outcome, if_pos hfits] at hout
        obtain ⟨h', c', m', heq, hr⟩ := hout
        rw [visit_eq_remove st hexpired, heq]
        apply ih hr.stores hr.shallow hr.placed
        intro x hx
        rw [hr.entries] at hx
        exact hsmall x (OrdMap.mem_of_mem_erase hx)
      | false =>
        have hnext := hc.move hs.valid hshallow .next
        rw [visit_eq_next st hexpired]
        exact ih hs hshallow hnext hsmall

end Loop

end Purge
end Leaves
