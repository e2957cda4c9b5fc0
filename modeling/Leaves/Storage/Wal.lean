import Leaves.Core.Serial

/-!
The two log files of `storage/_wal.hpp`: transactions go to one of them until a background task has
flushed the storage, then the other one is cleared and takes the next transaction. Transactions are
numbered from 1 on in the order they begin.
-/

namespace Leaves

def WAL_HEADER_SIZE : Nat := 8

/-- `_WalOp` -/
inductive WalOp where
  | begin
  | put
  | del
  | prepare
  | commit

def WalOp.tag : WalOp → UInt8
  | begin => 1
  | put => 2
  | del => 3
  | prepare => 4
  | commit => 5

/-- The open write transaction between two steps. -/
inductive WalWriter where
  | idle
  /-- a transaction without a log -/
  | unlogged
  /-- the database has started the transaction -/
  | started
  /-- `begin` has read `next_log` -/
  | loaded (idx : Bool)
  /-- and set `last_commit` -/
  | published (idx : Bool)
  /-- and `active_log` -/
  | writing
  /-- the record COMMIT is in the file -/
  | logged
  /-- `wal_commit` has come back -/
  | queued
  deriving DecidableEq, Repr

/-- The task that has the `_flush_lock`, between two steps. It belongs to the transaction `txn`. -/
inductive WalFlusher where
  | idle
  /-- the storage is flushed with the first `seen` transactions -/
  | flushing (txn seen : Nat)
  | stored (txn seen : Nat)
  /-- `flushed` has read `active_log` -/
  | loaded (txn seen : Nat) (idx : Bool)
  /-- `last_commit` lets it clear the file -/
  | checked (txn seen : Nat) (idx : Bool)
  | truncated (idx : Bool)
  /-- `write_off` has been reset -/
  | rewound (idx : Bool)
  /-- and `last_commit` -/
  | cleared (idx : Bool)
  deriving DecidableEq, Repr

structure Wal where
  /-- the bytes of a file behind the header, with the transactions they have been written for -/
  file : Bool → List (Nat × List UInt8)
  writeOff : Bool → Nat
  nextLog : Bool
  activeLog : Bool
  /-- the transaction with the id of `last_commit`, `none` stands for 0 -/
  lastCommit : Bool → Option Nat
  buf : List UInt8
  hasRecords : Bool
  prepared : Bool
  threshold : Nat
  writer : WalWriter
  flusher : WalFlusher
  /-- the transactions of the tasks in the queue -/
  tasks : List Nat
  /-- how many transactions have been committed in the database -/
  committed : Nat
  /-- how many of them are in the storage -/
  durable : Nat

inductive WalEvent where
  | setThreshold (bytes : Nat)
  | start (useWal : Bool)
  | loadNextLog
  | publishLastCommit
  | publishActiveLog
  | put (key value : List UInt8)
  | del (key : List UInt8)
  | prepare
  | walCommit
  | submit
  | commit
  | startFlush (txn : Nat)
  | endFlush
  | loadActiveLog
  | checkLastCommit
  | truncate
  | resetWriteOff
  | resetLastCommit
  | publishNextLog

namespace Wal

/-- `open` -/
def init : Wal where
  file _ := []
  writeOff _ := WAL_HEADER_SIZE
  nextLog := false
  activeLog := false
  lastCommit _ := none
  buf := []
  hasRecords := false
  prepared := false
  threshold := 104857600
  writer := .idle
  flusher := .idle
  tasks := []
  committed := 0
  durable := 0

/-- The open transaction. -/
def txn (s : Wal) : Nat := s.committed + 1

/-- `_wal_pwrite` at `write_off` of the active file. -/
def pwrite (s : Wal) (bytes : List UInt8) : Wal :=
  { s with
    file := Function.update s.file s.activeLog (s.file s.activeLog ++ [(s.txn, bytes)])
    writeOff := Function.update s.writeOff s.activeLog (s.writeOff s.activeLog + bytes.length) }

def record (s : Wal) (bytes : List UInt8) : Wal :=
  { s with hasRecords := true, buf := s.buf ++ bytes }

def put (s : Wal) (key value : List UInt8) : Wal :=
  s.record (WalOp.put.tag :: toLittle 4 key.length ++ toLittle 4 value.length ++ key ++ value)

def del (s : Wal) (key : List UInt8) : Wal :=
  s.record (WalOp.del.tag :: toLittle 4 key.length ++ key)

def prepare (s : Wal) : Wal :=
  if s.prepared then s
  else if s.hasRecords then
    { s.pwrite (s.buf ++ [WalOp.prepare.tag]) with buf := [], prepared := true }
  else { s with buf := [], prepared := true }

def commit (s : Wal) : Wal :=
  if s.hasRecords then s.pwrite [WalOp.commit.tag] else { s with buf := [] }

def activeDataSize (s : Wal) : Nat := s.writeOff s.activeLog - WAL_HEADER_SIZE

section Step

-- `base` is the id of the transaction that has been committed last when the log is opened
variable (base : Nat)

/-- The id of a transaction. -/
def txnId (txn : Nat) : Nat := Serial.nth base txn

/-- The value of `last_commit`. -/
def lastId (last : Option Nat) : Nat := last.elim 0 (txnId base)

/-- The last step of `begin`, with the record of the transaction. -/
def begin (s : Wal) (idx : Bool) : Wal :=
  { s with
    activeLog := idx
    buf := WalOp.begin.tag :: toLittle 4 (txnId base s.txn)
    hasRecords := false
    prepared := false
    writer := .writing }

/-- One step of the open transaction or of a task, `none` if it is not its turn. -/
def step (s : Wal) : WalEvent → Option Wal
  | .setThreshold bytes => some { s with threshold := bytes }
  | .start useWal =>
    if s.writer = .idle then some { s with writer := if useWal then .started else .unlogged }
    else none
  | .loadNextLog =>
    if s.writer = .started then some { s with writer := .loaded s.nextLog } else none
  | .publishLastCommit =>
    match s.writer with
    | .loaded idx => some { s with
        lastCommit := Function.update s.lastCommit idx (some s.txn), writer := .published idx }
    | _ => none
  | .publishActiveLog =>
    match s.writer with
    | .published idx => some (s.begin base idx)
    | _ => none
  | .put key value => if s.writer = .writing then some (s.put key value) else none
  | .del key => if s.writer = .writing then some (s.del key) else none
  | .prepare => if s.writer = .writing then some s.prepare else none
  | .walCommit =>
    if s.writer = .writing ∧ s.prepared = true then some { s.commit with writer := .logged }
    else none
  | .submit =>
    if s.writer = .logged then
      some { s with
        tasks := if s.threshold ≤ s.activeDataSize then s.tasks ++ [s.txn] else s.tasks
        writer := .queued }
    else none
  | .commit =>
    if s.writer = .queued ∨ s.writer = .unlogged then
      some { s with committed := s.txn, writer := .idle }
    else none
  | .startFlush txn =>
    if s.flusher = .idle ∧ txn ∈ s.tasks then
      some { s with tasks := s.tasks.erase txn, flusher := .flushing txn s.committed }
    else none
  | .endFlush =>
    match s.flusher with
    | .flushing txn seen =>
      some { s with durable := max s.durable seen, flusher := .stored txn seen }
    | _ => none
  | .loadActiveLog =>
    match s.flusher with
    | .stored txn seen => some { s with flusher := .loaded txn seen (!s.activeLog) }
    | _ => none
  | .checkLastCommit =>
    match s.flusher with
    | .loaded txn seen idx =>
      if Serial.le (lastId base (s.lastCommit idx)) (txnId base txn) then
        some { s with flusher := .checked txn seen idx }
      else some { s with flusher := .idle }
    | _ => none
  | .truncate =>
    match s.flusher with
    | .checked _ _ idx =>
      some { s with file := Function.update s.file idx [], flusher := .truncated idx }
    | _ => none
  | .resetWriteOff =>
    match s.flusher with
    | .truncated idx => some { s with
        writeOff := Function.update s.writeOff idx WAL_HEADER_SIZE, flusher := .rewound idx }
    | _ => none
  | .resetLastCommit =>
    match s.flusher with
    | .rewound idx => some { s with
        lastCommit := Function.update s.lastCommit idx none, flusher := .cleared idx }
    | _ => none
  | .publishNextLog =>
    match s.flusher with
    | .cleared idx => some { s with nextLog := idx, flusher := .idle }
    | _ => none

def run (s : Wal) : List WalEvent → Option Wal
  | [] => some s
  | e :: es => (s.step base e).bind fun s => run s es

end Step

/-- The file of the open transaction. -/
def openFile (s : Wal) : Option Bool :=
  match s.writer with
  | .published idx => some idx
  | .writing | .logged | .queued => some s.activeLog
  | .idle | .unlogged | .started | .loaded _ => none

/-- The file that is cleared, from the check until `last_commit` has been reset. -/
def clearing (s : Wal) : Option Bool :=
  match s.flusher with
  | .checked _ _ idx | .truncated idx | .rewound idx => some idx
  | _ => none

/-- No transaction begins on a file that is being cleared. The last transaction of the file has been
committed before the flush of its own task, and the ids of both are not too far from each other. -/
def StepOk (s : Wal) : WalEvent → Prop
  | .publishLastCommit =>
    match s.writer with
    | .loaded idx => s.clearing ≠ some idx
    | _ => True
  | .checkLastCommit =>
    match s.flusher with
    | .loaded txn seen idx =>
      (s.lastCommit idx = some txn → txn ≤ seen) ∧ s.txn < txn + (Serial.HALF_RANGE - 1)
    | _ => True
  | _ => True

instance (s : Wal) (e : WalEvent) : Decidable (s.StepOk e) := by
  unfold StepOk
  split
  . split
    . exact inferInstance
    . exact inferInstance
  . split
    . exact inferInstance
    . exact inferInstance
  . exact inferInstance

/-- Every step of a run meets the condition in the state it finds. -/
def RunOk (base : Nat) (s : Wal) : List WalEvent → Prop
  | [] => True
  | e :: es => s.StepOk e ∧ ((s.step base e).elim True fun s' => RunOk base s' es)

instance runOkDecidable (base : Nat) :
    (s : Wal) → (es : List WalEvent) → Decidable (s.RunOk base es)
  | _, [] => inferInstanceAs (Decidable True)
  | s, e :: es =>
    have : Decidable ((s.step base e).elim True fun s' => RunOk base s' es) :=
      match s.step base e with
      | none => inferInstanceAs (Decidable True)
      | some s' => runOkDecidable base s' es
    inferInstanceAs (Decidable (_ ∧ _))

/-- What is in a file has been committed and flushed, and the open transaction writes to the other
one. -/
structure Expendable (s : Wal) (idx : Bool) : Prop where
  committed : ∀ x ∈ s.file idx, x.1 ≤ s.committed
  durable : ∀ x ∈ s.file idx, x.1 ≤ s.durable
  openFile : s.openFile ≠ some idx

/-- How far the task has come. -/
def FlusherInv (s : Wal) : WalFlusher → Prop
  | .idle | .cleared _ => True
  | .flushing txn seen => txn ≤ seen + 1 ∧ seen ≤ s.committed
  | .stored txn seen | .loaded txn seen _ => txn ≤ seen + 1 ∧ seen ≤ s.durable
  | .checked _ _ idx => s.openFile ≠ some idx ∧ ∀ n, s.lastCommit idx = some n → n ≤ s.durable
  | .truncated idx | .rewound idx => s.openFile ≠ some idx ∧ s.file idx = []

structure Inv (s : Wal) : Prop where
  file : ∀ i, ∀ x ∈ s.file i, ∃ n, s.lastCommit i = some n ∧ x.1 ≤ n
  last : ∀ i n, s.lastCommit i = some n →
    n ≤ s.committed ∨ s.openFile = some i ∧ n = s.txn
  openFile : ∀ i, s.openFile = some i → s.lastCommit i = some s.txn
  tasks : ∀ k ∈ s.tasks, k ≤ s.committed ∨ s.writer = .queued ∧ k = s.txn
  durable : s.durable ≤ s.committed
  flusher : s.FlusherInv s.flusher

theorem inv_init : init.Inv := by
  refine ⟨?_, ?_, ?_, ?_, Nat.le_refl _, trivial⟩
  . rintro i x ⟨⟩
  . rintro i n ⟨⟩
  . rintro i ⟨⟩
  . rintro k ⟨⟩

section Steps

variable {s : Wal} (h : s.Inv)

include h

/-- A step that changes neither the files nor what is known of them. -/
theorem Inv.of_same {s' : Wal} (hfile : s'.file = s.file) (hlast : s'.lastCommit = s.lastCommit)
    (hopen : s'.openFile = s.openFile) (hcommitted : s'.committed = s.committed)
    (hdurable : s'.durable = s.durable) (hflusher : s'.flusher = s.flusher)
    (htasks : ∀ k ∈ s'.tasks, k ≤ s'.committed ∨ s'.writer = .queued ∧ k = s'.txn) : s'.Inv := by
  have htxn : s'.txn = s.txn := by rw [txn, txn, hcommitted]
  refine ⟨?_, ?_, ?_, htasks, ?_, ?_⟩
  . rw [hfile, hlast]
    exact h.file
  . rw [hlast, hopen, hcommitted, htxn]
    exact h.last
  . rw [hlast, hopen, htxn]
    exact h.openFile
  . rw [hdurable, hcommitted]
    exact h.durable
  . have := h.flusher
    rw [hflusher]
    unfold FlusherInv at this ⊢
    rw [hfile, hlast, hopen, hcommitted, hdurable]
    exact this

/-- The open transaction writes a record. -/
theorem Inv.pwrite (hopen : s.openFile = some s.activeLog) (bytes : List UInt8) :
    (s.pwrite bytes).Inv := by
  have hne : ∀ i, s.openFile ≠ some i → (s.pwrite bytes).file i = s.file i := by
    intro i hi
    have : i ≠ s.activeLog := fun heq => hi (heq ▸ hopen)
    rw [Wal.pwrite]
    simp only [Function.update_apply, this, ↓reduceIte]
  refine ⟨?_, h.last, h.openFile, h.tasks, h.durable, ?_⟩
  . intro i x hx
    rw [Wal.pwrite] at hx
    simp only [Function.update_apply] at hx
    split at hx
    next heq =>
      rw [List.mem_append, List.mem_singleton] at hx
      rcases hx with hx | rfl
      . rw [heq]
        exact h.file _ x hx
      . exact ⟨s.txn, h.openFile i (heq ▸ hopen), Nat.le_refl _⟩
    . exact h.file i x hx
  . have hflusher := h.flusher
    change (s.pwrite bytes).FlusherInv s.flusher
    cases hf : s.flusher with
    | truncated idx | rewound idx =>
      rw [hf] at hflusher
      exact ⟨hflusher.1, (hne idx hflusher.1).trans hflusher.2⟩
    | idle | flushing txn seen | stored txn seen | loaded txn seen idx | checked txn seen idx
    | cleared idx =>
      rw [hf] at hflusher
      exact hflusher

theorem Inv.tasks_le (hw : s.writer ≠ .queued) : ∀ k ∈ s.tasks, k ≤ s.committed := by
  intro k hk
  rcases h.tasks k hk with hle | ⟨hqueued, -⟩
  . exact hle
  . exact absurd hqueued hw

/-- The open transaction goes on with the same file. -/
theorem Inv.setWriter {w : WalWriter} (hw : s.writer ≠ .queued)
    (hopen : ({ s with writer := w } : Wal).openFile = s.openFile) :
    Inv { s with writer := w } :=
  h.of_same rfl rfl hopen rfl rfl rfl fun k hk => Or.inl (h.tasks_le hw k hk)

theorem Inv.publishLastCommit {idx : Bool} (hw : s.writer = .loaded idx)
    (hok : s.clearing ≠ some idx) :
    Inv { s with
      lastCommit := Function.update s.lastCommit idx (some s.txn), writer := .published idx } := by
  have hclosed : s.openFile = none := by rw [Wal.openFile, hw]
  have hlast : ∀ i n, s.lastCommit i = some n → n ≤ s.committed := by
    intro i n hn
    rcases h.last i n hn with hle | ⟨hopen, -⟩
    . exact hle
    . rw [hclosed] at hopen
      cases hopen
  refine ⟨?_, ?_, ?_, ?_, h.durable, ?_⟩
  . intro i x hx
    obtain ⟨n, hn, hle⟩ := h.file i x hx
    simp only [Function.update_apply]
    split
    next heq =>
      have := hlast i n hn
      exact ⟨s.txn, rfl, by rw [txn]; omega⟩
    . exact ⟨n, hn, hle⟩
  . intro i n hn
    simp only [Function.update_apply] at hn
    split at hn
    next heq =>
      right
      rw [heq]
      exact ⟨rfl, (Option.some.inj hn).symm⟩
    . exact Or.inl (hlast i n hn)
  . rintro i ⟨rfl⟩
    exact Function.update_self _ _ _
  . exact fun k hk => Or.inl (h.tasks_le (by rw [hw]; simp) k hk)
  . have hflusher := h.flusher
    have hne : ∀ {i}, s.clearing = some i → some idx ≠ some i := by
      intro i hi heq
      exact hok (hi.trans heq.symm)
    change FlusherInv _ s.flusher
    cases hf : s.flusher with
    | checked t c i =>
      rw [hf] at hflusher
      have hclear : some idx ≠ some i := hne (by rw [clearing, hf])
      refine ⟨hclear, fun n hn => hflusher.2 n ?_⟩
      simp only [Function.update_apply] at hn
      rw [if_neg fun heq => hclear (congrArg some heq.symm)] at hn
      exact hn
    | truncated i | rewound i =>
      rw [hf] at hflusher
      exact ⟨hne (by rw [clearing, hf]), hflusher.2⟩
    | idle | flushing _ _ | stored _ _ | loaded _ _ _ | cleared _ =>
      rw [hf] at hflusher
      exact hflusher

theorem Inv.prepare (hw : s.writer = .writing) : s.prepare.Inv := by
  have hopen : s.openFile = some s.activeLog := by rw [Wal.openFile, hw]
  unfold Wal.prepare
  split
  . exact h
  . split
    . have hp := h.pwrite hopen (s.buf ++ [WalOp.prepare.tag])
      exact hp.of_same rfl rfl rfl rfl rfl rfl hp.tasks
    . exact h.of_same rfl rfl rfl rfl rfl rfl h.tasks

theorem Inv.commit (hw : s.writer = .writing) : Inv { s.commit with writer := .logged } := by
  have hopen : s.openFile = some s.activeLog := by rw [Wal.openFile, hw]
  unfold Wal.commit
  split
  . have hp := h.pwrite hopen [WalOp.commit.tag]
    have hw' : (s.pwrite [WalOp.commit.tag]).writer = .writing := hw
    apply hp.setWriter
    . rw [hw']
      simp
    . rw [Wal.openFile, Wal.openFile, hw']
  . refine h.of_same rfl rfl ?_ rfl rfl rfl fun k hk => Or.inl (h.tasks_le (by rw [hw]; simp) k hk)
    rw [hopen]
    rfl

theorem Inv.submit (hw : s.writer = .logged) :
    Inv { s with
      tasks := if s.threshold ≤ s.activeDataSize then s.tasks ++ [s.txn] else s.tasks
      writer := .queued } := by
  refine h.of_same rfl rfl ?_ rfl rfl rfl ?_
  . rw [Wal.openFile, Wal.openFile, hw]
  . have hle := h.tasks_le (by rw [hw]; simp)
    intro k hk
    simp only at hk
    split at hk
    . rw [List.mem_append, List.mem_singleton] at hk
      rcases hk with hk | hk
      . exact Or.inl (hle k hk)
      . exact Or.inr ⟨rfl, hk⟩
    . exact Or.inl (hle k hk)

/-- The database commits the transaction. -/
theorem Inv.commitDb : Inv { s with committed := s.txn, writer := .idle } := by
  have hle : s.committed ≤ s.txn := Nat.le_succ _
  refine ⟨h.file, ?_, ?_, ?_, ?_, ?_⟩
  . intro i n hn
    left
    rcases h.last i n hn with hn | ⟨-, hn⟩
    . exact Nat.le_trans hn hle
    . exact Nat.le_of_eq hn
  . rintro i ⟨⟩
  . intro k hk
    left
    rcases h.tasks k hk with hk | ⟨-, hk⟩
    . exact Nat.le_trans hk hle
    . exact Nat.le_of_eq hk
  . exact Nat.le_trans h.durable hle
  . have hflusher := h.flusher
    change FlusherInv _ s.flusher
    cases hf : s.flusher with
    | flushing _ _ =>
      rw [hf] at hflusher
      exact ⟨hflusher.1, Nat.le_trans hflusher.2 hle⟩
    | checked _ _ _ | truncated _ | rewound _ =>
      rw [hf] at hflusher
      exact ⟨by rintro ⟨⟩, hflusher.2⟩
    | idle | stored _ _ | loaded _ _ _ | cleared _ =>
      rw [hf] at hflusher
      exact hflusher

theorem Inv.setFlusher {f : WalFlusher} (hf : FlusherInv { s with flusher := f } f) :
    Inv { s with flusher := f } :=
  ⟨h.file, h.last, h.openFile, h.tasks, h.durable, hf⟩

theorem Inv.startFlush {txn : Nat} (htask : txn ∈ s.tasks) :
    Inv { s with tasks := s.tasks.erase txn, flusher := .flushing txn s.committed } := by
  refine ⟨h.file, h.last, h.openFile, ?_, h.durable, ?_, Nat.le_refl _⟩
  . exact fun k hk => h.tasks k (List.mem_of_mem_erase hk)
  . rcases h.tasks txn htask with hle | ⟨-, rfl⟩
    . exact Nat.le_succ_of_le hle
    . exact Nat.le_refl _

theorem Inv.endFlush {txn seen : Nat} (hf : s.flusher = .flushing txn seen) :
    Inv { s with durable := max s.durable seen, flusher := .stored txn seen } := by
  have hflusher := h.flusher
  rw [hf] at hflusher
  refine ⟨h.file, h.last, h.openFile, h.tasks, ?_, hflusher.1, Nat.le_max_right _ _⟩
  exact Nat.max_le.mpr ⟨h.durable, hflusher.2⟩

/-- The check of `flushed` finds no transaction that has not been flushed. -/
theorem Inv.checked {base : Nat} (hpos : 0 < base) (hmax : base ≤ Serial.MAX_VALUE)
    {txn seen : Nat} {idx : Bool} (hf : s.flusher = .loaded txn seen idx)
    (hle : Serial.le (lastId base (s.lastCommit idx)) (txnId base txn) = true)
    (hown : s.lastCommit idx = some txn → txn ≤ seen)
    (hnear : s.txn < txn + (Serial.HALF_RANGE - 1)) :
    Inv { s with flusher := .checked txn seen idx } := by
  have hflusher := h.flusher
  rw [hf] at hflusher
  obtain ⟨hseen, hdurable⟩ := hflusher
  have hlast : ∀ n, s.lastCommit idx = some n → n ≤ s.durable := by
    intro n hn
    have hbegun : n ≤ s.txn := by
      rcases h.last idx n hn with hn | ⟨-, hn⟩
      . exact Nat.le_succ_of_le hn
      . exact Nat.le_of_eq hn
    rw [hn] at hle
    have hn' : n ≤ txn := Serial.le_of_le_nth hpos hmax (Nat.lt_of_le_of_lt hbegun hnear) hle
    rcases Nat.lt_or_eq_of_le hn' with hlt | heq
    . omega
    . have := hown (heq ▸ hn)
      omega
  refine h.setFlusher ⟨?_, hlast⟩
  intro hopen
  have hself := hlast _ (h.openFile idx hopen)
  have := h.durable
  rw [Wal.txn] at hself
  omega

theorem Inv.truncate {txn seen : Nat} {idx : Bool} (hf : s.flusher = .checked txn seen idx) :
    Inv { s with file := Function.update s.file idx [], flusher := .truncated idx } := by
  have hflusher := h.flusher
  rw [hf] at hflusher
  refine ⟨?_, h.last, h.openFile, h.tasks, h.durable, hflusher.1, Function.update_self _ _ _⟩
  intro i x hx
  simp only [Function.update_apply] at hx
  split at hx
  . cases hx
  . exact h.file i x hx

theorem Inv.resetLastCommit {idx : Bool} (hf : s.flusher = .rewound idx) :
    Inv { s with
      lastCommit := Function.update s.lastCommit idx none, flusher := .cleared idx } := by
  have hflusher := h.flusher
  rw [hf] at hflusher
  refine ⟨?_, ?_, ?_, h.tasks, h.durable, trivial⟩
  . intro i x hx
    have hne : i ≠ idx := by
      rintro rfl
      have hnil : x ∈ s.file i := hx
      rw [hflusher.2] at hnil
      cases hnil
    simp only [Function.update_apply, if_neg hne]
    exact h.file i x hx
  . intro i n hn
    simp only [Function.update_apply] at hn
    split at hn
    . cases hn
    . exact h.last i n hn
  . intro i hi
    have hne : i ≠ idx := by
      rintro rfl
      exact hflusher.1 hi
    simp only [Function.update_apply, if_neg hne]
    exact h.openFile i hi

/-- What one step leaves as it is. -/
theorem Inv.step {base : Nat} (hpos : 0 < base) (hmax : base ≤ Serial.MAX_VALUE) {e : WalEvent}
    {s' : Wal} (hs : s.step base e = some s') (hok : s.StepOk e) : s'.Inv := by
  cases e with
  | setThreshold bytes =>
    rw [← Option.some.inj hs]
    exact h.of_same rfl rfl rfl rfl rfl rfl h.tasks
  | start useWal =>
    rw [Wal.step] at hs
    split at hs
    next hw =>
      rw [← Option.some.inj hs]
      apply h.setWriter
      . rw [hw]
        simp
      . rw [Wal.openFile, Wal.openFile, hw]
        cases useWal <;> rfl
    . cases hs
  | loadNextLog =>
    rw [Wal.step] at hs
    split at hs
    next hw =>
      rw [← Option.some.inj hs]
      apply h.setWriter
      . rw [hw]
        simp
      . rw [Wal.openFile, Wal.openFile, hw]
    . cases hs
  | publishLastCommit =>
    rw [Wal.step] at hs
    split at hs
    next idx hw =>
      rw [← Option.some.inj hs]
      rw [StepOk, hw] at hok
      exact h.publishLastCommit hw hok
    . cases hs
  | publishActiveLog =>
    rw [Wal.step] at hs
    split at hs
    next idx hw =>
      rw [← Option.some.inj hs]
      refine h.of_same rfl rfl ?_ rfl rfl rfl ?_
      . rw [Wal.openFile, Wal.openFile, hw]
        rfl
      . exact fun k hk => Or.inl (h.tasks_le (by rw [hw]; simp) k hk)
    . cases hs
  | put key value =>
    rw [Wal.step] at hs
    split at hs
    . rw [← Option.some.inj hs]
      exact h.of_same rfl rfl rfl rfl rfl rfl h.tasks
    . cases hs
  | del key =>
    rw [Wal.step] at hs
    split at hs
    . rw [← Option.some.inj hs]
      exact h.of_same rfl rfl rfl rfl rfl rfl h.tasks
    . cases hs
  | prepare =>
    rw [Wal.step] at hs
    split at hs
    next hw =>
      rw [← Option.some.inj hs]
      exact h.prepare hw
    . cases hs
  | walCommit =>
    rw [Wal.step] at hs
    split at hs
    next hw =>
      rw [← Option.some.inj hs]
      exact h.commit hw.1
    . cases hs
  | submit =>
    rw [Wal.step] at hs
    split at hs
    next hw =>
      rw [← Option.some.inj hs]
      exact h.submit hw
    . cases hs
  | commit =>
    rw [Wal.step] at hs
    split at hs
    . rw [← Option.some.inj hs]
      exact h.commitDb
    . cases hs
  | startFlush txn =>
    rw [Wal.step] at hs
    split at hs
    next hf =>
      rw [← Option.some.inj hs]
      exact h.startFlush hf.2
    . cases hs
  | endFlush =>
    rw [Wal.step] at hs
    split at hs
    next txn seen hf =>
      rw [← Option.some.inj hs]
      exact h.endFlush hf
    . cases hs
  | loadActiveLog =>
    rw [Wal.step] at hs
    split at hs
    next txn seen hf =>
      rw [← Option.some.inj hs]
      have hflusher := h.flusher
      rw [hf] at hflusher
      exact h.setFlusher hflusher
    . cases hs
  | checkLastCommit =>
    rw [Wal.step] at hs
    split at hs
    next txn seen idx hf =>
      rw [StepOk, hf] at hok
      split at hs
      next hle =>
        rw [← Option.some.inj hs]
        exact h.checked hpos hmax hf hle hok.1 hok.2
      . rw [← Option.some.inj hs]
        exact h.setFlusher trivial
    . cases hs
  | truncate =>
    rw [Wal.step] at hs
    split at hs
    next txn seen idx hf =>
      rw [← Option.some.inj hs]
      exact h.truncate hf
    . cases hs
  | resetWriteOff =>
    rw [Wal.step] at hs
    split at hs
    next idx hf =>
      rw [← Option.some.inj hs]
      have hflusher := h.flusher
      rw [hf] at hflusher
      exact ⟨h.file, h.last, h.openFile, h.tasks, h.durable, hflusher⟩
    . cases hs
  | resetLastCommit =>
    rw [Wal.step] at hs
    split at hs
    next idx hf =>
      rw [← Option.some.inj hs]
      exact h.resetLastCommit hf
    . cases hs
  | publishNextLog =>
    rw [Wal.step] at hs
    split at hs
    next idx hf =>
      rw [← Option.some.inj hs]
      exact ⟨h.file, h.last, h.openFile, h.tasks, h.durable, trivial⟩
    . cases hs

end Steps

theorem Inv.run {base : Nat} (hpos : 0 < base) (hmax : base ≤ Serial.MAX_VALUE)
    {es : List WalEvent} {s s' : Wal} (h : s.Inv) (hrun : s.run base es = some s')
    (hok : s.RunOk base es) : s'.Inv := by
  induction es generalizing s with
  | nil =>
    rw [Wal.run, Option.some.injEq] at hrun
    rw [← hrun]
    exact h
  | cons e es ih =>
    rw [Wal.run, Option.bind_eq_some_iff] at hrun
    obtain ⟨u, hstep, hrun⟩ := hrun
    obtain ⟨hfirst, hrest⟩ := hok
    rw [hstep] at hrest
    exact ih (h.step hpos hmax hstep hfirst) hrun hrest

/-- A file that `flushed` is about to clear is not needed any more. -/
theorem truncation (base : Nat) (hpos : 0 < base) (hmax : base ≤ Serial.MAX_VALUE)
    (es : List WalEvent) (s : Wal) (hrun : init.run base es = some s) (hok : init.RunOk base es)
    (txn seen : Nat) (idx : Bool) (hf : s.flusher = .checked txn seen idx) : s.Expendable idx := by
  have h := inv_init.run hpos hmax hrun hok
  have hflusher := h.flusher
  rw [hf] at hflusher
  have hdurable : ∀ x ∈ s.file idx, x.1 ≤ s.durable := by
    intro x hx
    obtain ⟨n, hn, hle⟩ := h.file idx x hx
    exact Nat.le_trans hle (hflusher.2 n hn)
  refine ⟨?_, hdurable, hflusher.1⟩
  exact fun x hx => Nat.le_trans (hdurable x hx) h.durable

/-- A transaction with one record, up to the queue. -/
def transaction : List WalEvent :=
  [.start true, .loadNextLog, .publishLastCommit, .publishActiveLog, .put [0x61] [1], .prepare,
    .walCommit, .submit]

def flush (txn : Nat) : List WalEvent :=
  [.startFlush txn, .endFlush, .loadActiveLog, .checkLastCommit]

def clear : List WalEvent := [.truncate, .resetWriteOff, .resetLastCommit, .publishNextLog]

/-- Two transactions, each with its task: the second one clears the file of the first. -/
def history : List WalEvent :=
  .setThreshold 1 :: transaction ++ [.commit] ++ flush 1 ++ clear ++ transaction ++ [.commit] ++
    flush 2

theorem truncation_history : ∃ s, init.run 1 history = some s ∧ s.file false ≠ [] ∧
    s.Expendable false := by
  obtain ⟨s, hs⟩ : ∃ s, init.run 1 history = some s := Option.isSome_iff_exists.mp (by decide +kernel)
  have hcheck : (init.run 1 history).map (fun s => (s.flusher, s.file false)) =
      some (.checked 2 2 false, [(1, [1, 2, 0, 0, 0, 2, 1, 0, 0, 0, 1, 0, 0, 0, 97, 1, 4]), (1, [5])]) := by
    decide +kernel
  rw [hs, Option.map_some, Option.some.injEq, Prod.mk.injEq] at hcheck
  refine ⟨s, hs, ?_, ?_⟩
  . rw [hcheck.2]
    simp
  . exact truncation 1 (by decide) (by decide) history s hs (by decide +kernel) 2 2 false hcheck.1

/-- The task of the second transaction flushes the storage before the transaction is committed, the
third one begins on the other file. -/
def lost : List WalEvent :=
  .setThreshold 1 :: transaction ++ [.commit] ++ transaction ++ flush 1 ++ clear ++
    [.startFlush 2, .endFlush, .commit, .start true, .loadNextLog, .publishLastCommit,
      .publishActiveLog, .loadActiveLog, .checkLastCommit]

/-- The file with the second transaction is cleared, which is not in the storage. -/
theorem truncation_lost : ¬∀ (es : List WalEvent) (s : Wal), init.run 1 es = some s →
    ∀ txn seen idx, s.flusher = .checked txn seen idx → s.Expendable idx := by
  intro h
  obtain ⟨s, hs⟩ : ∃ s, init.run 1 lost = some s := Option.isSome_iff_exists.mp (by decide +kernel)
  have hlost : (init.run 1 lost).map (fun s => (s.flusher, s.durable, (s.file false).getLast?)) =
      some (.checked 2 1 false, 1, some (2, [5])) := by
    decide +kernel
  rw [hs, Option.map_some, Option.some.injEq, Prod.mk.injEq, Prod.mk.injEq] at hlost
  obtain ⟨hf, hdurable, hrecord⟩ := hlost
  have hle := (h lost s hs 2 1 false hf).durable _ (List.mem_of_getLast? hrecord)
  rw [hdurable] at hle
  exact absurd hle (by decide)

/-- The file of the open transaction is cleared: it has begun after the check. -/
example : ((init.run 1 (.setThreshold 1 :: transaction ++ [.commit] ++ transaction ++ [.commit] ++
    flush 1 ++ clear ++ flush 2 ++ [.start true, .loadNextLog, .publishLastCommit])).map
      fun s => (s.flusher, s.openFile)) = some (.checked 2 2 true, some true) := by
  decide +kernel

end Wal
end Leaves
