import Leaves.Core.Bytes
import Leaves.Replication.Purge
import Leaves.Trie.Reading

/-!
When the purge job runs again, and which of its runs do what they are for.
-/

namespace Leaves
namespace Purge

theorem foldl_keepOldest {x : Nat} (ks : List Nat) (hx : 0 < x) (hpos : ∀ k ∈ ks, 0 < k) :
    ks.foldl keepOldest x ∈ x :: ks ∧ ∀ k ∈ x :: ks, ks.foldl keepOldest x ≤ k := by
  induction ks generalizing x with
  | nil => simp
  | cons k ks ih =>
    have hk : 0 < k := hpos k List.mem_cons_self
    rw [List.foldl_cons]
    by_cases hlt : k < x
    . have hkeep : keepOldest x k = k := if_pos (Or.inr hlt)
      obtain ⟨hmem, hle⟩ := ih hk fun j hj => hpos j (List.mem_cons_of_mem k hj)
      rw [hkeep]
      refine ⟨List.mem_cons_of_mem x hmem, ?_⟩
      intro j hj
      rw [List.mem_cons] at hj
      rcases hj with rfl | hj
      . exact Nat.le_trans (hle k List.mem_cons_self) (Nat.le_of_lt hlt)
      . exact hle j hj
    . have hkeep : keepOldest x k = x := if_neg (by omega)
      obtain ⟨hmem, hle⟩ := ih hx fun j hj => hpos j (List.mem_cons_of_mem k hj)
      rw [hkeep]
      refine ⟨?_, ?_⟩
      . rw [List.mem_cons] at hmem ⊢
        rcases hmem with hmem | hmem
        . exact Or.inl hmem
        . exact Or.inr (List.mem_cons_of_mem k hmem)
      . intro j hj
        rw [List.mem_cons, List.mem_cons] at hj
        rcases hj with rfl | rfl | hj
        . exact hle _ List.mem_cons_self
        . exact Nat.le_trans (hle x List.mem_cons_self) (Nat.not_lt.mp hlt)
        . exact hle j (List.mem_cons_of_mem x hj)

/-- The oldest time of those that are kept, zero if there is none. -/
theorem foldl_keepOldest_zero {ks : List Nat} (hne : ks ≠ []) (hpos : ∀ k ∈ ks, 0 < k) :
    ks.foldl keepOldest 0 ∈ ks ∧ ∀ k ∈ ks, ks.foldl keepOldest 0 ≤ k := by
  obtain ⟨k, ks, rfl⟩ := List.exists_cons_of_ne_nil hne
  have hkeep : keepOldest 0 k = k := if_pos (Or.inl rfl)
  rw [List.foldl_cons, hkeep]
  exact foldl_keepOldest ks (hpos k List.mem_cons_self) fun j hj =>
    hpos j (List.mem_cons_of_mem k hj)

theorem time?_lt {v : Value} {ts : Nat} (h : time? v = some ts) : ts < 2 ^ 64 := by
  unfold time? at h
  split at h
  . next hlen =>
    cases h
    have hlt := Bytes.ofLittle_lt (v.bytes.take 8)
    rw [List.length_take, Nat.min_eq_left hlen] at hlt
    exact hlt
  . cases h

theorem mem_times {es : List (Key × Value)} {ts : Nat} :
    ts ∈ times es ↔ ∃ e ∈ es, time? e.2 = some ts := by
  unfold times
  rw [List.mem_filterMap]

theorem lt_of_mem_times_kept {olderThan ts : Nat} {es : List (Key × Value)}
    (h : ts ∈ times (es.filter (kept olderThan))) : olderThan < ts ∧ ts < 2 ^ 64 := by
  obtain ⟨e, he, htime⟩ := mem_times.mp h
  have hkept := (List.mem_filter.mp he).2
  unfold kept expired at hkept
  rw [htime, Bool.not_eq_true', decide_eq_false_iff_not] at hkept
  exact ⟨Nat.not_le.mp hkept, time?_lt htime⟩

namespace Job

variable (job : Job)

/-- The entries that a run looks at. -/
def visits (es : List (Key × Value)) : List (Key × Value) :=
  visited job.busy 0 (reached job.olderThan es)

/-- The entries that a run does not look at. -/
def misses (es : List (Key × Value)) : List (Key × Value) :=
  es.filter fun e => e ∉ job.visits es

/-- The run is interrupted. -/
def stops (es : List (Key × Value)) : Bool :=
  !(unvisited job.busy 0 (reached job.olderThan es)).isEmpty

/-- The next run comes in time for a tombstone that the run has not looked at. -/
def Timely (es : List (Key × Value)) (ts : Nat) : Prop :=
  let kept := times ((job.visits es).filter (kept job.olderThan))
  if kept ≠ [] then
    (∃ k ∈ kept, k ≤ ts) ∨ ∀ k ∈ kept, 2 ^ 64 ≤ k + job.retention.toNat
  else if job.stops es = true ∧ (job.visits es).filter (expired job.olderThan) ≠ [] then
    0 < job.olderThan ∨ 0 < ts ∨ job.retention.toNat + 1 = 2 ^ 64
  else
    job.now.toNat ≤ ts ∨ job.retention.toNat = 0

/-- The times that the run has kept are behind the threshold. -/
theorem now_lt_of_olderThan_lt {ts : Nat} (h : job.olderThan < ts) :
    job.now.toNat < ts + job.retention.toNat := by
  unfold olderThan at h
  split at h <;> omega

/-- What `_do_purge` returns. -/
def remaining (es : List (Key × Value)) : Nat :=
  let oldestTs := (times ((job.visits es).filter (kept job.olderThan))).foldl keepOldest 0
  let purged := ((job.visits es).filter (expired job.olderThan)).length
  if job.stops es = true ∧ oldestTs = 0 ∧ 0 < purged then
    if 0 < job.olderThan then job.olderThan else 1
  else
    oldestTs

/-- The time is kept, and the next run is due when the oldest of those is. -/
theorem nextSeconds_kept {purged ts oldest : Nat} {ks : List Nat} (hmem : oldest ∈ ks)
    (hle : ∀ k ∈ ks, oldest ≤ k) (hks : ∀ k ∈ ks, job.olderThan < k ∧ k < 2 ^ 64) :
    job.nextSeconds ⟨purged, oldest⟩ ≤ ts + job.retention.toNat - job.now.toNat ↔
      (∃ k ∈ ks, k ≤ ts) ∨ ∀ k ∈ ks, 2 ^ 64 ≤ k + job.retention.toNat := by
  obtain ⟨hlt, hbound⟩ := hks oldest hmem
  have hnow := job.now_lt_of_olderThan_lt hlt
  have hret := job.retention.toNat_lt
  have hexists : (∃ k ∈ ks, k ≤ ts) ↔ oldest ≤ ts := by
    constructor
    . rintro ⟨k, hk, hkts⟩
      exact Nat.le_trans (hle k hk) hkts
    . exact fun hts => ⟨oldest, hmem, hts⟩
  have hforall : (∀ k ∈ ks, 2 ^ 64 ≤ k + job.retention.toNat) ↔
      2 ^ 64 ≤ oldest + job.retention.toNat := by
    constructor
    . exact fun h => h oldest hmem
    . intro h k hk
      have hk' := hle k hk
      omega
  rw [hexists, hforall]
  unfold nextSeconds
  dsimp only
  rw [if_pos (Nat.lt_of_le_of_lt (Nat.zero_le _) hlt)]
  by_cases hwrap : 2 ^ 64 ≤ oldest + job.retention.toNat
  . have hmod : (oldest + job.retention.toNat) % 2 ^ 64 =
        oldest + job.retention.toNat - 2 ^ 64 := by
      rw [Nat.mod_eq_sub_mod hwrap, Nat.mod_eq_of_lt (by omega)]
    rw [hmod]
    split <;> omega
  . rw [Nat.mod_eq_of_lt (Nat.not_le.mp hwrap), if_pos hnow]
    omega

/-- The next run is due right away, or as soon as a tombstone of the first second is. -/
theorem nextSeconds_stopped {purged ts : Nat} :
    job.nextSeconds ⟨purged, if 0 < job.olderThan then job.olderThan else 1⟩ ≤
        ts + job.retention.toNat - job.now.toNat ↔
      0 < job.olderThan ∨ 0 < ts ∨ job.retention.toNat + 1 = 2 ^ 64 := by
  have hret := job.retention.toNat_lt
  have hnow := job.now.toNat_lt
  by_cases holder : 0 < job.olderThan
  . have hsum : job.olderThan + job.retention.toNat = job.now.toNat := by
      unfold olderThan at holder ⊢
      split at holder
      . next hlt =>
        rw [if_pos hlt]
        omega
      . cases holder
    unfold nextSeconds
    dsimp only
    rw [if_pos holder, if_pos holder, hsum, Nat.mod_eq_of_lt hnow, if_neg (Nat.lt_irrefl _)]
    exact iff_of_true (Nat.zero_le _) (Or.inl holder)
  . have hle : job.now.toNat ≤ job.retention.toNat := by
      unfold olderThan at holder
      split at holder <;> omega
    unfold nextSeconds
    dsimp only
    rw [if_neg holder, if_pos Nat.one_pos]
    by_cases hwrap : job.retention.toNat + 1 = 2 ^ 64
    . rw [Nat.add_comm, hwrap, Nat.mod_self, if_neg (Nat.not_lt_zero _)]
      exact iff_of_true (Nat.zero_le _) (Or.inr (Or.inr rfl))
    . rw [Nat.mod_eq_of_lt (by omega), if_pos (by omega)]
      omega

theorem nextSeconds_none {purged ts : Nat} :
    job.nextSeconds ⟨purged, 0⟩ ≤ ts + job.retention.toNat - job.now.toNat ↔
      job.now.toNat ≤ ts ∨ job.retention.toNat = 0 := by
  unfold nextSeconds
  dsimp only
  rw [if_neg (Nat.lt_irrefl 0)]
  omega

/-- The next run is due when the time is, or before. -/
theorem nextSeconds_iff (purged : Nat) (es : List (Key × Value)) (ts : Nat) :
    job.nextSeconds ⟨purged, job.remaining es⟩ ≤ ts + job.retention.toNat - job.now.toNat ↔
      job.Timely es ts := by
  unfold remaining Timely
  dsimp only
  have hks : ∀ k ∈ times ((job.visits es).filter (kept job.olderThan)),
      job.olderThan < k ∧ k < 2 ^ 64 := fun k hk => lt_of_mem_times_kept hk
  generalize times ((job.visits es).filter (kept job.olderThan)) = ks at hks
  by_cases hne : ks ≠ []
  . obtain ⟨hmem, hle⟩ := foldl_keepOldest_zero hne
      fun k hk => Nat.lt_of_le_of_lt (Nat.zero_le _) (hks k hk).1
    have hpos := (hks _ hmem).1
    rw [if_pos hne, if_neg (by omega)]
    exact job.nextSeconds_kept hmem hle hks
  . rw [if_neg hne]
    rw [not_not] at hne
    subst hne
    have hlen : 0 < ((job.visits es).filter (expired job.olderThan)).length ↔
        (job.visits es).filter (expired job.olderThan) ≠ [] := List.length_pos_iff
    by_cases hstop : job.stops es = true ∧ (job.visits es).filter (expired job.olderThan) ≠ []
    . rw [if_pos hstop, if_pos ⟨hstop.1, rfl, hlen.mpr hstop.2⟩]
      exact job.nextSeconds_stopped
    . rw [if_neg hstop, if_neg fun h => hstop ⟨h.1, hlen.mp h.2.2⟩]
      exact job.nextSeconds_none

/-- No removal of the run throws, and what it does not look at is no reason to run earlier. -/
structure Sound (n : Nat) (h : Heap) (root : Addr) (es : List (Key × Value)) : Prop where
  fits : fits job.olderThan job.busy n 0 (job.start h root) = true
  complete : job.stops es = false → ∀ e ∈ job.misses es, expired job.olderThan e = false
  timely : job.cancelled = false → ∀ ts ∈ times (job.misses es), job.Timely es ts

end Job

/--
A run that is not interrupted has removed the old tombstones, every run has kept the others as they
are, and the next one is due when the oldest tombstone is, or before.
-/
structure Purges (job : Job) (o : List Addr) (es : List (Key × Value)) (r : Run) (m : Trie) :
    Prop where
  stores : r.heap.Stores m o
  root : r.root = m.root
  removes : r.interrupted = false → m.entries = es.filter (kept job.olderThan)
  spares : m.entries.Sublist es ∧ ∀ e ∈ es, e ∉ m.entries → expired job.olderThan e = true
  schedules : job.cancelled = false → ∃ s, r.next = some s ∧
    ∀ ts ∈ times m.entries, s ≤ ts + job.retention.toNat - job.now.toNat

section Runs

variable {job : Job} {o : List Addr} {es : List (Key × Value)} {m : Trie} {h : Heap} {n : Nat}

theorem mem_of_mem_reached (olderThan : Nat) {e : Key × Value}
    (he : e ∈ reached olderThan es) : e ∈ es := by
  cases es with
  | nil => exact he
  | cons x es =>
    rw [reached] at he
    split at he
    . rw [List.mem_cons] at he ⊢
      rcases he with rfl | he
      . exact Or.inl rfl
      . exact Or.inr (List.mem_of_mem_filter he)
    . exact he

theorem mem_of_mem_visits {e : Key × Value} (he : e ∈ job.visits es) : e ∈ es := by
  apply mem_of_mem_reached job.olderThan
  rw [← visited_append_unvisited job.busy 0 (reached job.olderThan es)]
  exact List.mem_append_left _ he

/-- What is left of the entries, where those of `visits` have been looked at. -/
def left (job : Job) (es : List (Key × Value)) : List (Key × Value) :=
  es.filter fun e => !(decide (e ∈ job.visits es) && expired job.olderThan e)

theorem mem_left {e : Key × Value} : e ∈ left job es ↔
    e ∈ job.misses es ∨ e ∈ (job.visits es).filter (kept job.olderThan) := by
  unfold left Job.misses kept
  rw [List.mem_filter, List.mem_filter, List.mem_filter]
  by_cases he : e ∈ job.visits es
  . have hes := mem_of_mem_visits he
    simp [he, hes]
  . simp [he]

theorem left_eq_kept_iff : left job es = es.filter (kept job.olderThan) ↔
    ∀ e ∈ job.misses es, expired job.olderThan e = false := by
  constructor
  . intro heq e he
    have hmem : e ∈ left job es := mem_left.mpr (Or.inl he)
    rw [heq, List.mem_filter, kept, Bool.not_eq_true'] at hmem
    exact hmem.2
  . intro hall
    apply List.filter_congr
    intro e he
    by_cases hev : e ∈ job.visits es
    . rw [decide_eq_true hev, Bool.true_and]
      rfl
    . have hmiss : e ∈ job.misses es := by
        unfold Job.misses
        rw [List.mem_filter]
        exact ⟨he, decide_eq_true hev⟩
      rw [decide_eq_false hev, Bool.false_and, kept, hall e hmiss]

/-- A tombstone that is kept is not forgotten. -/
theorem timely_left : (∀ ts ∈ times (left job es), job.Timely es ts) ↔
    ∀ ts ∈ times (job.misses es), job.Timely es ts := by
  constructor
  . intro hall ts hts
    obtain ⟨e, he, htime⟩ := mem_times.mp hts
    exact hall ts (mem_times.mpr ⟨e, mem_left.mpr (Or.inl he), htime⟩)
  . intro hall ts hts
    obtain ⟨e, he, htime⟩ := mem_times.mp hts
    rcases mem_left.mp he with he | he
    . exact hall ts (mem_times.mpr ⟨e, he, htime⟩)
    . have hmem : ts ∈ times ((job.visits es).filter (kept job.olderThan)) :=
        mem_times.mpr ⟨e, he, htime⟩
      unfold Job.Timely
      dsimp only
      rw [if_pos (List.ne_nil_of_mem hmem)]
      exact Or.inl ⟨ts, hmem, Nat.le_refl ts⟩

/-- What a run of the job has come to. -/
structure Ran (job : Job) (o : List Addr) (es : List (Key × Value)) (r : Run) (m : Trie) :
    Prop where
  stores : r.heap.Stores m o
  root : r.root = m.root
  entries : m.entries = left job es
  interrupted : r.interrupted = job.stops es
  next : r.next =
    if job.cancelled then none else some (job.nextSeconds ⟨r.purged, job.remaining es⟩)

theorem Ran.purges_iff {r : Run} (hr : Ran job o es r m) :
    Purges job o es r m ↔
      (job.stops es = false → ∀ e ∈ job.misses es, expired job.olderThan e = false) ∧
      (job.cancelled = false → ∀ ts ∈ times (job.misses es), job.Timely es ts) := by
  have hnext : job.cancelled = false →
      ((∃ s, r.next = some s ∧
          ∀ ts ∈ times m.entries, s ≤ ts + job.retention.toNat - job.now.toNat) ↔
        ∀ ts ∈ times (job.misses es), job.Timely es ts) := by
    intro hcancelled
    rw [← timely_left, hr.next, hcancelled, hr.entries, if_neg Bool.false_ne_true]
    constructor
    . rintro ⟨s, ⟨rfl⟩, hs⟩ ts hts
      exact (job.nextSeconds_iff r.purged es ts).mp (hs ts hts)
    . intro hall
      exact ⟨_, rfl, fun ts hts => (job.nextSeconds_iff r.purged es ts).mpr (hall ts hts)⟩
  constructor
  . intro h
    refine ⟨?_, fun hcancelled => (hnext hcancelled).mp (h.schedules hcancelled)⟩
    intro hstops
    rw [← left_eq_kept_iff, ← hr.entries]
    apply h.removes
    rw [hr.interrupted, hstops]
  . rintro ⟨hcomplete, htimely⟩
    refine ⟨hr.stores, hr.root, ?_, ⟨?_, ?_⟩,
      fun hcancelled => (hnext hcancelled).mpr (htimely hcancelled)⟩
    . intro hinterrupted
      rw [hr.entries, left_eq_kept_iff]
      apply hcomplete
      rw [← hr.interrupted, hinterrupted]
    . rw [hr.entries]
      exact List.filter_sublist
    . intro e he hnot
      rw [hr.entries] at hnot
      unfold left at hnot
      rw [List.mem_filter, not_and] at hnot
      have hgone := hnot he
      rw [Bool.not_eq_true', Bool.not_eq_false, Bool.and_eq_true] at hgone
      exact hgone.2

/-- A run comes to an end, unless a removal throws. -/
theorem runPurge_spec (job : Job) (hs : h.Stores m o) (hshallow : m.Shallow)
    (hn : m.entries.length < n) :
    (fits job.olderThan job.busy n 0 (job.start h m.root) = true ∧
      ∃ r m', job.runPurge n h m.root = some (.ok r) ∧ Ran job o m.entries r m') ∨
    (fits job.olderThan job.busy n 0 (job.start h m.root) = false ∧
      ∃ fault, job.runPurge n h m.root = some (.error fault)) := by
  have hs' := Edit.stores_nextTransaction hs job.reader
  have hclears : Clears job.olderThan job.busy n o m.entries (job.start h m.root) :=
    start_clears hs' hshallow hn
  unfold Job.runPurge Job.doPurge
  by_cases hroot : m.root = 0
  . obtain rfl : m = none := by
      cases m with
      | none => rfl
      | some t => exact absurd hroot (hs.valid.addr_ne t rfl)
    left
    rw [if_pos hroot]
    refine ⟨?_, _, none, rfl, hs, rfl, rfl, rfl, ?_⟩
    . obtain ⟨n, rfl⟩ : ∃ k, n = k + 1 := Nat.exists_eq_succ_of_ne_zero (by omega)
      rfl
    . rfl
  . rw [if_neg hroot]
    rcases hclears with ⟨hfits, st, m', hloop, hcleared⟩ | ⟨hfits, fault, hloop⟩
    . left
      rw [hloop]
      refine ⟨hfits, _, m', rfl, hcleared.stores, hcleared.root, hcleared.entries,
        hcleared.interrupted, ?_⟩
      dsimp only
      congr 3
      rw [hcleared.interrupted, hcleared.oldestTs, hcleared.purged]
      rfl
    . right
      rw [hloop]
      exact ⟨hfits, fault, rfl⟩

/-- A run that is not interrupted looks at every entry, if there is no empty key. -/
theorem misses_eq_nil (hquiet : ∀ k, job.busy k = false) (hne : ∀ e ∈ es, e.1 ≠ []) :
    job.misses es = [] := by
  have hvisited : ∀ k (l : List (Key × Value)), visited job.busy k l = l := by
    intro k l
    induction l generalizing k with
    | nil => rfl
    | cons e l ih => rw [visited, hquiet, if_neg Bool.false_ne_true, ih]
  have hreached : reached job.olderThan es = es := by
    cases es with
    | nil => rfl
    | cons e es => exact if_neg fun h => hne e List.mem_cons_self h.1
  unfold Job.misses Job.visits
  rw [hvisited, hreached, List.filter_eq_nil_iff]
  intro e he
  rw [decide_eq_true_eq, not_not]
  exact he

/-- Without the empty key and with small leaves it does what it is for. -/
theorem sound_of_quiet (hs : h.Stores m o) (hshallow : m.Shallow)
    (hsmall : ∀ e ∈ m.entries, Cursor.Small e) (hquiet : ∀ k, job.busy k = false)
    (hne : ∀ e ∈ m.entries, e.1 ≠ []) : job.Sound n h m.root m.entries := by
  have hs' := Edit.stores_nextTransaction hs job.reader
  have hmisses := misses_eq_nil hquiet hne
  constructor
  . exact fits_of_small hs' hshallow (Cursor.faces_first hs' hshallow).placed hsmall
  . rw [hmisses]
    rintro - e he
    cases he
  . rw [hmisses]
    rintro - ts hts
    cases hts

end Runs

/-- A tombstone of the first second. -/
def oldTombstone (key : Key) : Edit := .value key ⟨toLittle 8 1, []⟩

/-- A run that nobody disturbs, a long time after it. -/
def quietJob : Job := ⟨100, 10, 1, fun _ => false, false⟩

end Purge
end Leaves
