import Leaves.Db.Edits
import Leaves.Db.Refinement
import Leaves.Db.Lemmas.Withdrawn
import Leaves.Memory.BigMemory

/-!
What `value` and `remove` leave behind if a page, an area or a chunk for a big value cannot be had.
The trie of the free chunks is in the pages of the transaction as well, a chunk is freed by a new
entry.
-/

namespace Leaves

open Cursor

/-- The bytes of the key of a free chunk: the size big endian, the offset little endian. -/
def FreeKey.key (k : FreeKey) : Key :=
  ((FreeKey.bytes 8 k.size).reverse ++ FreeKey.bytes 8 k.offset).map UInt8.ofNat

/-- `chunk_offset` of the reference in a leaf. -/
def refOffset (ref : List UInt8) : Nat := (ref.take 8).foldr (fun b n => b.toNat + 256 * n) 0

/-- The tries of a transaction. -/
structure Txn where
  heap : Heap
  root : Addr
  /-- the root of the trie of the free chunks -/
  bigRoot : Addr
  /-- the size of the hot chunk -/
  hotSize : Nat
  /-- the 16 bytes at an offset, read as the header of a chunk -/
  memory : Nat → FreeKey

namespace Txn

/-- The key `_add_chunk` makes of the header of a chunk. -/
def chunkKey (s : Txn) (ref : List UInt8) : Key :=
  let header := s.memory (refOffset ref - FREE_KEY_SIZE)
  (FreeKey.pack header.size header.position header.hasSuccessor).key

/-- The value of a free chunk: the transaction that has freed it. -/
def valueBlock (s : Txn) : Value := ⟨false, (FreeKey.bytes 4 s.heap.txnId).map UInt8.ofNat⟩

/-- `BigMemory::free` for the chunk a leaf refers to. -/
def freeChunk (s : Txn) (ref : List UInt8) : Except Fault Txn :=
  match (Cursor.init s.bigRoot).find s.heap.rd (s.chunkKey ref) with
  | none => .error .keyTooBig
  | some c => (value s.heap c s.valueBlock).map fun r =>
      { s with heap := r.1, bigRoot := r.2.root }

def freeChunkRequests (s : Txn) (ref : List UInt8) : List Txn :=
  match (Cursor.init s.bigRoot).find s.heap.rd (s.chunkKey ref) with
  | none => []
  | some c => (valueRequests s.heap c s.valueBlock).map fun r =>
      { s with heap := r.1, bigRoot := r.2 }

/-- The first part of `reserve` and of `remove`: the chunk of the leaf of a valid cursor is freed.
-/
def release (s : Txn) (c : Cursor) : Except Fault Txn :=
  match c.leaf? s.heap.rd with
  | some l => if l.big then s.freeChunk l.vdata else .ok s
  | none => .ok s

def releaseRequests (s : Txn) (c : Cursor) : List Txn :=
  match c.leaf? s.heap.rd with
  | some l => if l.big then s.freeChunkRequests l.vdata else []
  | none => []

/-- The leaf of `reserve`, its bytes are what the page has held before. -/
def unwritten (c : Cursor) (v : Content) (raw : Nat → UInt8) : Value :=
  ⟨false, (List.range (storedValue c.restKey.length v).bytes.length).map raw⟩

/-- `alloc` of the big memory may fail unless the hot chunk is big enough. -/
def needsChunk (s : Txn) (c : Cursor) (v : Content) : Bool :=
  (storedValue c.restKey.length v).big &&
    s.hotSize < padding (FREE_KEY_SIZE + v.data.length) MAX_PAGE_SIZE

/-- The requests of `value(v)`: the chunk for a big value comes after the leaf. -/
def reserveRequests (s : Txn) (c : Cursor) (v : Content) (raw : Nat → UInt8) : List Txn :=
  s.releaseRequests c ++ requestsAfter (s.release c) fun s =>
    (valueRequests s.heap c (unwritten c v raw)).map (fun r => { s with heap := r.1, root := r.2 }) ++
      requestsAfter (value s.heap c (unwritten c v raw)) fun r =>
        if s.needsChunk c v then [{ s with heap := r.1, root := r.2.root }] else []

/-- The requests of `remove()`. -/
def removeRequests (s : Txn) (c : Cursor) : List Txn :=
  if c.isValid s.heap.rd then
    s.releaseRequests c ++ requestsAfter (s.release c) fun s =>
      (Cursor.removeRequests s.heap c).map fun r => { s with heap := r.1, root := r.2 }
  else []

/-- The requests of `BigMemory::free` before a node of the trie of the free chunks is written. -/
def freeChunkSafe (s : Txn) (ref : List UInt8) : Nat :=
  match (Cursor.init s.bigRoot).find s.heap.rd (s.chunkKey ref) with
  | none => 0
  | some c => valueSafe s.heap c

/-- The requests before something is written that a root leads to, `n` of them for a value in the
leaf. -/
def safe (s : Txn) (c : Cursor) (n : Nat) : Nat :=
  match c.leaf? s.heap.rd with
  | some l => if l.big then s.freeChunkSafe l.vdata else n
  | none => n

/-- The root still leads to the entries, and no chunk that they refer to is free. -/
def Intact (s : Txn) (es : List (Key × Value)) : Prop :=
  ReadsAs s.heap.rd s.root es ∧ ∃ fs, ReadsAs s.heap.rd s.bigRoot fs ∧
    ∀ e ∈ es, e.2.big = true → OrdMap.lookup fs (s.chunkKey e.2.bytes) = none

/-- The tries of a transaction between two calls. The pages `o` are used by others. -/
structure Holds (s : Txn) (T F : Trie) (o : List Addr) : Prop where
  values : s.heap.Stores T (F.addrs ++ o)
  free : F.Valid s.heap.rd
  root : s.root = T.root
  bigRoot : s.bigRoot = F.root
  /-- the blocks of the free chunks are small -/
  small : ∀ e ∈ F.entries, e.2.big = false
  used : ∀ e ∈ T.entries, e.2.big = true → OrdMap.lookup F.entries (s.chunkKey e.2.bytes) = none

end Txn

namespace Cursor

/-- What is known about `value` and its requests. -/
structure Performs (h : Heap) (c : Cursor) (T : Trie) (v : Value) (o : List Addr) : Prop where
  requests : Turns (valueSafe h c) (Untouched h c.root (T.addrs ++ o)) (Broken h T.entries o)
    (valueRequests h c v)
  valid : (c.leaf? h.rd).isSome → (valueRequests h c v).length ≤ valueSafe h c
  done : ∀ r, value h c v = .ok r → valueSafe h c ≤ (valueRequests h c v).length ∧
    ∃ T' K, r.1.Stores T' o ∧ (∀ b ∈ o, r.1.page b = h.page b) ∧ r.2.root = T'.root ∧
      T'.entries = OrdMap.insert T.entries K v ∧
      OrdMap.lookup T.entries K = (c.leaf? h.rd).map fun l => ⟨l.big, l.vdata⟩

section Performs

variable {h : Heap} {c : Cursor} {T : Trie} {pos : Option Key} {o : List Addr}

/-- The leaf a cursor is on holds the value of the key. -/
theorem Stopped.leaf_value {rd : Addr → Node} {t : Tree} {s : Stop} {K : Key} (hc : c.Stopped s)
    (hends : s.Ends t K) (hst : Tree.Stored rd t) (hwf : t.WF) :
    OrdMap.lookup t.entries K = (c.leaf? rd).map fun l => (⟨l.big, l.vdata⟩ : Value) := by
  have hentry := hc.entry hends hst hwf
  rw [shown?, OrdMap.entryAt, Option.bind_some] at hentry
  have hsnd := congrArg (Option.map Prod.snd) hentry
  rw [Option.map_map, Option.map_map] at hsnd
  have hid : (Prod.snd ∘ fun v : Value => (K, v)) = id := rfl
  rw [hid, Option.map_id] at hsnd
  exact hsnd.symm

theorem Stands.performs (hs : h.Stores T o) (hc : c.Stands T pos)
    (hnew : T = none → c.currentKey = []) (v : Value) : c.Performs h T v o := by
  rcases hc.off_iff with ⟨hnil, hoff⟩ | ⟨t, K, rfl, rfl, hstop⟩
  . have hleaf : c.leaf? h.rd = none := by rw [leaf?, hnil]
    cases T with
    | none =>
      have hu : h.Uses o := hs.uses
      obtain ⟨hturn, hle⟩ := valueRequests_first hu hc.root hnil (hnew rfl) v
      refine ⟨hturn, by simp [hleaf], fun r hr => ⟨hle, ?_⟩⟩
      have hout := value_first (v := v) hu hc.root hnil (hnew rfl)
      rw [Outcome] at hout
      split at hout
      . obtain ⟨h', c', t', heq, hw⟩ := hout
        rw [heq, Except.ok.injEq] at hr
        rw [← hr]
        exact ⟨some t', c.restKey, hw.holds.stores, hw.page, hw.root, hw.entries, by rw [hleaf]; rfl⟩
      . rw [hout] at hr
        cases hr
    | some t =>
      have hroot : c.root ≠ 0 := by
        rw [hc.root]
        exact hs.valid.addr_ne t rfl
      have hreq : valueRequests h c v = [] := by
        rw [valueRequests, hnil]
        simp only [if_neg hroot]
      have hval : value h c v = .error .noValidPosition := by
        rw [value, hnil]
        simp only [if_neg hroot]
      refine ⟨by rw [hreq]; exact Turns.nil, by simp [hleaf], ?_⟩
      intro r hr
      rw [hval] at hr
      cases hr
  . have hh := hs.holds
    have hends := Tree.search_root_ends hh.wf K
    have hlookup := hstop.leaf_value hends hh.stored hh.wf
    obtain ⟨hturn, hge, hle⟩ := valueRequests_turn hh hends hstop hc.root v
    refine ⟨hturn, fun hvalid => hle ?_, fun r hr => ?_⟩
    . rcases hends.hit_or_miss hh.wf with ⟨a, w, -, -, hcmp, -⟩ | ⟨-, hmiss⟩
      . exact hcmp
      . rw [hmiss] at hlookup
        rw [Option.isSome_iff_exists] at hvalid
        obtain ⟨l, hl⟩ := hvalid
        rw [hl] at hlookup
        cases hlookup
    . have hout := value_outcome (v := v) hh hends hstop hc.root
      rw [Outcome] at hout
      split at hout
      next hfits =>
        obtain ⟨h', c', t', heq, hw⟩ := hout
        rw [heq, Except.ok.injEq] at hr
        rw [← hr]
        exact ⟨hge hfits, some t', K, hw.holds.stores, hw.page, hw.root, hw.entries, hlookup⟩
      next =>
        rw [hout] at hr
        cases hr

theorem Stands.on_leaf {rd : Addr → Node} (hc : c.Stands T pos) (hv : T.Valid rd)
    (hvalid : c.isValid rd = true) :
    ∃ t s, T = some t ∧ s.Ends t ((pos.getD [])) ∧ c.Stopped s ∧
      ∃ a v, s.tree = .leaf a s.suffix v := by
  rcases hc.off_iff with ⟨hnil, -⟩ | ⟨t, K, rfl, rfl, hstop⟩
  . rw [isValid, hnil] at hvalid
    cases hvalid
  . have hwf := hv.wf t rfl
    have hends := Tree.search_root_ends hwf K
    refine ⟨t, _, rfl, hends, hstop, ?_⟩
    rcases hends.hit_or_miss hwf with ⟨a, v, htree, -⟩ | ⟨hcmp, hmiss⟩
    . exact ⟨a, v, htree⟩
    . have hlookup := hstop.leaf_value hends (hv.stored t rfl) hwf
      rw [hmiss] at hlookup
      rw [isValid_eq, shown?] at hvalid
      cases hl : c.leaf? rd with
      | none =>
        rw [hl] at hvalid
        cases hvalid
      | some l =>
        rw [hl] at hlookup
        cases hlookup

end Performs

end Cursor

namespace Txn

section Intact

variable {s x : Txn} {T F : Trie} {o : List Addr} {c : Cursor} {pos : Option Key}
  {es : List (Key × Value)}

theorem rd_of_page {h h' : Heap} {l : List Addr} (hpage : ∀ b ∈ l, h'.page b = h.page b) :
    ∀ b ∈ l, h'.rd b = h.rd b := by
  intro b hb
  rw [Heap.rd, hpage b hb]
  rfl

theorem Holds.readFree (hs : s.Holds T F o) : F.Read s.heap.rd s.bigRoot :=
  ⟨hs.free, hs.bigRoot, fun a ha => hs.values.uses.ne_zero a (by simp [ha])⟩

/-- Nothing is lost as long as the pages of the tries stay the same. -/
theorem Holds.intact (hs : s.Holds T F o) (hroot : x.root = s.root) (hbig : x.bigRoot = s.bigRoot)
    (hmem : x.memory = s.memory) (hT : ∀ b ∈ T.addrs, x.heap.page b = s.heap.page b)
    (hF : ∀ b ∈ F.addrs, x.heap.page b = s.heap.page b) : x.Intact T.entries := by
  have hread := hs.values.read
  rw [← hs.root] at hread
  refine ⟨⟨T, ?_, rfl⟩, F.entries, ⟨F, ?_, rfl⟩, ?_⟩
  . rw [hroot]
    exact hread.congr (rd_of_page hT)
  . rw [hbig]
    exact hs.readFree.congr (rd_of_page hF)
  . intro e he hbig
    rw [chunkKey, hmem]
    exact hs.used e he hbig

theorem not_intact_of_differs {h : Heap} (hx : Differs h es o (x.heap, x.root)) : ¬x.Intact es :=
  fun hintact => hx.reads hintact.1

/-- A chunk of the entries is free. -/
theorem not_intact_of_freed (hF : F.Read x.heap.rd x.bigRoot) {e : Key × Value} (he : e ∈ es)
    (hbig : e.2.big = true) (hfree : (OrdMap.lookup F.entries (x.chunkKey e.2.bytes)).isSome) :
    ¬x.Intact es := by
  rintro ⟨-, fs, hfs, hused⟩
  rw [hF.readsAs_iff] at hfs
  rw [hfs, hused e he hbig] at hfree
  cases hfree

theorem length_bytes (n x : Nat) : (FreeKey.bytes n x).length = n := by
  induction n generalizing x with
  | zero => rfl
  | succ n ih => rw [FreeKey.bytes, List.length_cons, ih]

theorem length_chunkKey (s : Txn) (ref : List UInt8) : (s.chunkKey ref).length = 16 := by
  rw [chunkKey, FreeKey.key]
  simp [length_bytes]

/-- Where the free cursor is in front of the insertion of a free chunk. -/
theorem Holds.findChunk (hs : s.Holds T F o) (ref : List UInt8) :
    ∃ c, (Cursor.init s.bigRoot).find s.heap.rd (s.chunkKey ref) = some c ∧
      c.root = s.bigRoot ∧
      c.Performs s.heap F s.valueBlock (T.addrs ++ o) ∧
      ∃ h' c' F', value s.heap c s.valueBlock = .ok (h', c') ∧ h'.Stores F' (T.addrs ++ o) ∧
        (∀ b ∈ T.addrs ++ o, h'.page b = s.heap.page b) ∧ c'.root = F'.root ∧
        (OrdMap.lookup F'.entries (s.chunkKey ref)).isSome := by
  have hF : s.heap.Stores F (T.addrs ++ o) := by
    refine ⟨hs.values.uses.perm ?_, hs.free⟩
    rw [← List.append_assoc, ← List.append_assoc]
    exact List.perm_append_comm.append_right o
  have hlen : (s.chunkKey ref).length ≤ MAX_KEY_SIZE := by
    rw [length_chunkKey]
    decide
  obtain ⟨c, hfind, hroot, hnone, hsome⟩ := find_init hF hlen
  have hstands : c.Stands F (some (s.chunkKey ref)) := by
    refine ⟨hroot, ?_, ?_⟩
    . rintro t ht _ ⟨rfl⟩
      exact hsome t ht
    . rintro (hnil | hnil)
      . exact (hnone hnil).1
      . cases hnil
  have hblock : s.valueBlock.bytes.length = 4 := by simp [valueBlock, length_bytes]
  rw [hs.bigRoot]
  refine ⟨c, hfind, hroot, hstands.performs hF (fun hnil => (hnone hnil).2.1) _, ?_⟩
  have hfits : ∀ n ≤ 255, fitsPage (LeafNode.sizeOf n s.valueBlock.bytes.length) = true := by
    intro n hn
    rw [fitsPage_iff, LeafNode.sizeOf, LeafNode.HEADER_SIZE, hblock]
    omega
  cases F with
  | none =>
    obtain ⟨hnil, hcur, hrest⟩ := hnone rfl
    have hout := value_first (v := s.valueBlock) hF.uses hroot hnil hcur
    rw [Outcome, if_pos (hfits _ (length_lastPart_le _))] at hout
    obtain ⟨h', c', t', heq, hw⟩ := hout
    refine ⟨h', c', some t', heq, hw.holds.stores, hw.page, hw.root, ?_⟩
    rw [Trie.entries, hw.entries, hrest, OrdMap.lookup_insert, if_pos rfl]
    rfl
  | some t =>
    have hends := Tree.search_root_ends hF.holds.wf (s.chunkKey ref)
    have hlabel : (newLeafKey (t.search [] (s.chunkKey ref))).length ≤ 255 := by
      rw [newLeafKey]
      split
      next hcmp =>
        rcases hends.hit_or_miss hF.holds.wf with ⟨a, w, htree, -, -, -⟩ | ⟨hmiss, -⟩
        . have hwf := (Path.wf_plug.mp (hends.plug ▸ hF.holds.wf)).2.2
          rw [htree] at hwf ⊢
          exact (Tree.wf_leaf.mp hwf).1
        . exact absurd hcmp hmiss
      next => exact length_lastPart_le _
    have hout := value_outcome (v := s.valueBlock) hF.holds hends (hsome t rfl) hroot
    rw [Outcome, if_pos (hfits _ hlabel)] at hout
    obtain ⟨h', c', t', heq, hw⟩ := hout
    refine ⟨h', c', some t', heq, hw.holds.stores, hw.page, hw.root, ?_⟩
    rw [Trie.entries, hw.entries, OrdMap.lookup_insert, if_pos rfl]
    rfl

/-- The trie of the values is as it was, and the chunk `ref` is free. -/
structure Freed (s s' : Txn) (T : Trie) (ref : List UInt8) (F' : Trie) (o : List Addr) : Prop where
  values : s'.heap.Stores T (F'.addrs ++ o)
  free : F'.Read s'.heap.rd s'.bigRoot
  page : ∀ b ∈ T.addrs, s'.heap.page b = s.heap.page b
  memory : s'.memory = s.memory
  freed : (OrdMap.lookup F'.entries (s.chunkKey ref)).isSome

/-- A chunk that is freed: in front of each request, and after the last one. -/
theorem Holds.freeChunk (hs : s.Holds T F o) (ref : List UInt8) :
    Turns (s.freeChunkSafe ref) (fun x => x.Intact T.entries) (fun x => ¬x.Intact T.entries)
        (s.freeChunkRequests ref) ∧
      s.freeChunkSafe ref ≤ (s.freeChunkRequests ref).length ∧
      ∃ s' F', s.freeChunk ref = .ok s' ∧ Freed s s' T ref F' o := by
  obtain ⟨c, hfind, hcroot, hperforms, h', c', F', heq, hstores, hpage, hroot, hfreed⟩ :=
    hs.findChunk ref
  have hlen := (hperforms.done _ heq).1
  rw [freeChunkRequests, freeChunkSafe, Txn.freeChunk, hfind]
  dsimp only
  refine ⟨?_, by rwa [List.length_map], _, F', by rw [heq]; rfl, ?_⟩
  . refine Turns.map (hperforms.requests.mono (fun r hr => ?_) (fun r hr => ?_))
    . refine hs.intact rfl (hr.root.trans hcroot) rfl (fun b hb => hr.page b (by simp [hb]))
        (fun b hb => hr.page b (by simp [hb]))
    . rcases hr with htorn | ⟨⟨e, he, hbig⟩, -⟩
      . rintro ⟨-, fs, hfs, -⟩
        exact (htorn.differs fs).reads hfs
      . rw [hs.small e he] at hbig
        cases hbig
  . have hT : ∀ b ∈ T.addrs, h'.page b = s.heap.page b := fun b hb => hpage b (by simp [hb])
    have hread := hstores.read
    rw [← hroot] at hread
    refine ⟨⟨hstores.uses.perm ?_, ?_⟩, hread, hT, rfl, hfreed⟩
    . rw [← List.append_assoc, ← List.append_assoc]
      exact List.perm_append_comm.append_right o
    . have hvalues := hs.values.read
      exact (hvalues.congr (rd_of_page hT)).valid

/-- A cursor looks the same as long as the pages of its trie stay the same. -/
theorem stands_leaf (hc : c.Stands T pos) {l : LeafNode} {rd : Addr → Node} (hv : T.Valid rd)
    (hl : c.leaf? rd = some l) : ∃ K, (K, (⟨l.big, l.vdata⟩ : Value)) ∈ T.entries := by
  rcases hc.off_iff with ⟨hnil, -⟩ | ⟨t, K, rfl, rfl, hstop⟩
  . rw [leaf?, hnil] at hl
    cases hl
  . have hwf := hv.wf t rfl
    have hlookup := hstop.leaf_value (Tree.search_root_ends hwf K) (hv.stored t rfl) hwf
    rw [hl, Option.map_some] at hlookup
    exact ⟨K, (OrdMap.lookup_eq_some_iff (Tree.ascending_entries hwf)).mp hlookup⟩

end Intact

section Requests

variable {s x : Txn} {T F : Trie} {o : List Addr} {c : Cursor} {pos : Option Key}

/-- Once the chunk of an entry is free, no request finds the tries as they were. -/
theorem Freed.not_intact {s' : Txn} {ref : List UInt8} {F' : Trie}
    (hf : Freed s s' T ref F' o) {e : Key × Value} (he : e ∈ T.entries) (hbig : e.2.big = true)
    (href : e.2.bytes = ref) (hx : x.bigRoot = s'.bigRoot) (hmem : x.memory = s'.memory)
    (hpage : ∀ b ∈ F'.addrs, x.heap.page b = s'.heap.page b) : ¬x.Intact T.entries := by
  have hread : F'.Read x.heap.rd x.bigRoot := by
    rw [hx]
    exact hf.free.congr (rd_of_page hpage)
  refine not_intact_of_freed hread he hbig ?_
  rw [chunkKey, hmem, hf.memory, href]
  exact hf.freed

/-- The requests of `value` for a value in the leaf, or without a leaf. -/
theorem Holds.valueRequests (hs : s.Holds T F o) (hc : c.Stands T pos)
    (hnew : T = none → c.currentKey = []) (hrequests : s.releaseRequests c = [])
    (hrelease : s.release c = .ok s) (v : Content) (raw : Nat → UInt8) {k : Nat}
    (hx : (s.reserveRequests c v raw)[k]? = some x) :
    x.Intact T.entries ↔ k < valueSafe s.heap c ∨
      (c.leaf? s.heap.rd).map (fun l => (⟨l.big, l.vdata⟩ : Value)) = some (unwritten c v raw) := by
  have hp := hc.performs hs.values hnew (unwritten c v raw)
  rw [reserveRequests, hrequests, hrelease, List.nil_append, requestsAfter] at hx
  by_cases hk : k < (Cursor.valueRequests s.heap c (unwritten c v raw)).length
  . rw [List.getElem?_append_left (by rwa [List.length_map]), List.getElem?_map,
      Option.map_eq_some_iff] at hx
    obtain ⟨r, hr, rfl⟩ := hx
    obtain ⟨hbefore, hafter⟩ := hp.requests k r hr
    constructor
    . intro hintact
      refine Or.inl (Nat.lt_of_not_le fun hle => ?_)
      exact (hafter hle).differs.reads hintact.1
    . intro hsafe
      have hlt : k < valueSafe s.heap c := by
        rcases hsafe with hlt | hleaf
        . exact hlt
        . have hsome : (c.leaf? s.heap.rd).isSome := by
            cases hl : c.leaf? s.heap.rd with
            | none =>
              rw [hl] at hleaf
              cases hleaf
            | some l => rfl
          have := hp.valid hsome
          omega
      have hr := hbefore hlt
      exact hs.intact (hr.root.trans (hc.root.trans hs.root.symm)) rfl rfl
        (fun b hb => hr.page b (by simp [hb])) (fun b hb => hr.page b (by simp [hb]))
  . rw [List.getElem?_append_right (by rw [List.length_map]; omega), List.length_map] at hx
    have hmem := List.mem_of_getElem? hx
    cases hval : value s.heap c (unwritten c v raw) with
    | error fault =>
      rw [hval] at hmem
      simp [requestsAfter] at hmem
    | ok r =>
      obtain ⟨hle, T', K, hstores, hpage, hroot, hentries, hlookup⟩ := hp.done r hval
      rw [hval, requestsAfter] at hmem
      have hxeq : x = { s with heap := r.1, root := r.2.root } := by
        split at hmem
        . exact List.mem_singleton.mp hmem
        . cases hmem
      have hread : T'.Read x.heap.rd x.root := by
        rw [hxeq, hroot]
        exact hstores.read
      have hfree : F.Read x.heap.rd x.bigRoot := by
        rw [hxeq]
        exact hs.readFree.congr (rd_of_page fun b hb => hpage b (by simp [hb]))
      have hused : ∀ e ∈ T.entries, e.2.big = true →
          OrdMap.lookup F.entries (x.chunkKey e.2.bytes) = none := by
        rw [hxeq]
        exact hs.used
      have hdata : ReadsAs x.heap.rd x.root T.entries ↔
          OrdMap.lookup T.entries K = some (unwritten c v raw) := by
        rw [hread.readsAs_iff, hentries, OrdMap.insert_eq_self_iff hs.values.valid.ascending]
      rw [← hlookup]
      constructor
      . intro hintact
        exact Or.inr (hdata.mp hintact.1)
      . rintro (hlt | hleaf)
        . omega
        . exact ⟨hdata.mpr hleaf, F.entries, ⟨F, hfree, rfl⟩, hused⟩

/-- The requests of `remove` for a value in the leaf. -/
theorem Holds.removeRequests (hs : s.Holds T F o) (hc : c.Stands T pos)
    (hrequests : s.releaseRequests c = []) (hrelease : s.release c = .ok s) {k : Nat}
    (hx : (s.removeRequests c)[k]? = some x) :
    x.Intact T.entries ↔ k < removeSafe s.heap c.stack := by
  rw [Txn.removeRequests, hrequests, hrelease, List.nil_append, requestsAfter] at hx
  split at hx
  next hvalid =>
    rw [List.getElem?_map, Option.map_eq_some_iff] at hx
    obtain ⟨r, hr, rfl⟩ := hx
    obtain ⟨t, s', rfl, hends, hstop, a, v, htree⟩ := hc.on_leaf hs.values.valid hvalid
    obtain ⟨hbefore, hafter⟩ :=
      removeRequests_turn hs.values.holds hends hstop hc.root htree k r hr
    constructor
    . intro hintact
      refine Nat.lt_of_not_le fun hle => ?_
      exact (hafter hle).reads hintact.1
    . intro hlt
      have hr := hbefore hlt
      exact hs.intact (hr.root.trans (hc.root.trans hs.root.symm)) rfl rfl
        (fun b hb => hr.page b (List.mem_append_left _ hb)) (fun b hb => hr.page b (by simp [hb]))
  next => simp at hx

/-- The requests after the chunk of the leaf has been freed. -/
theorem Freed.requests {s' : Txn} {F' : Trie} {l : LeafNode} (hf : Freed s s' T l.vdata F' o)
    (hc : c.Stands T pos) (hnew : T = none → c.currentKey = []) (hv : T.Valid s.heap.rd)
    (hl : c.leaf? s.heap.rd = some l) (hbig : l.big = true) :
    (∀ v raw, ∀ x ∈ (Cursor.valueRequests s'.heap c (unwritten c v raw)).map
        (fun r => { s' with heap := r.1, root := r.2 }) ++
        requestsAfter (value s'.heap c (unwritten c v raw)) (fun r =>
          if s'.needsChunk c v then [{ s' with heap := r.1, root := r.2.root }] else []),
      ¬Txn.Intact x T.entries) ∧
    ∀ x ∈ (Cursor.removeRequests s'.heap c).map (fun r => { s' with heap := r.1, root := r.2 }),
      ¬Txn.Intact x T.entries := by
  obtain ⟨K, hentry⟩ := stands_leaf hc hv hl
  have hnot : ∀ x : Txn, x.bigRoot = s'.bigRoot → x.memory = s'.memory →
      (∀ b ∈ F'.addrs, x.heap.page b = s'.heap.page b) → ¬x.Intact T.entries :=
    fun x hx hmem hpage => hf.not_intact hentry hbig rfl hx hmem hpage
  refine ⟨?_, ?_⟩
  . intro v raw x hx
    have hp := hc.performs hf.values hnew (unwritten c v raw)
    rcases List.mem_append.mp hx with hx | hx
    . obtain ⟨r, hr, rfl⟩ := List.mem_map.mp hx
      obtain ⟨i, hi⟩ := List.mem_iff_getElem?.mp hr
      obtain ⟨hbefore, hafter⟩ := hp.requests i r hi
      refine hnot _ rfl rfl fun b hb => ?_
      by_cases hlt : i < valueSafe s'.heap c
      . exact (hbefore hlt).page b (by simp [hb])
      . exact (hafter (by omega)).differs.page b (by simp [hb])
    . cases hval : value s'.heap c (unwritten c v raw) with
      | error fault => simp [hval, requestsAfter] at hx
      | ok r =>
        obtain ⟨-, -, -, -, hpage, -⟩ := hp.done r hval
        rw [hval, requestsAfter] at hx
        split at hx
        . rw [List.mem_singleton.mp hx]
          exact hnot _ rfl rfl fun b hb => hpage b (by simp [hb])
        . cases hx
  . intro x hx
    obtain ⟨r, hr, rfl⟩ := List.mem_map.mp hx
    have hvalid : c.isValid s'.heap.rd = true := by
      rw [Cursor.removeRequests] at hr
      split at hr
      . assumption
      . cases hr
    obtain ⟨t, s1, rfl, hends, hstop, a, v, htree⟩ := hc.on_leaf hf.values.valid hvalid
    obtain ⟨i, hi⟩ := List.mem_iff_getElem?.mp hr
    obtain ⟨hbefore, hafter⟩ :=
      removeRequests_turn hf.values.holds hends hstop hc.root htree i r hi
    refine hnot _ rfl rfl fun b hb => ?_
    by_cases hlt : i < removeSafe s'.heap c.stack
    . exact (hbefore hlt).page b (by simp [hb])
    . exact (hafter (by omega)).page b (by simp [hb])

end Requests

/-- A request that fails leaves the tries as they were if and only if it comes before the first
write to something that a root leads to: to a link above a new node, to a node that is changed in
place, to the flag of a leaf, or to the trie of the free chunks. The one exception is a leaf whose
bytes happen to be those of the old value. -/
theorem allocationFailure {s : Txn} {T F : Trie} {o : List Addr} {c : Cursor} {pos : Option Key}
    (hs : s.Holds T F o) (hc : c.Stands T pos) (hnew : T = none → c.currentKey = []) :
    (∀ v raw k x, (s.reserveRequests c v raw)[k]? = some x →
      (x.Intact T.entries ↔ k < s.safe c (valueSafe s.heap c) ∨
        (c.leaf? s.heap.rd).map (fun l => (⟨l.big, l.vdata⟩ : Value)) =
          some (unwritten c v raw))) ∧
    ∀ k x, (s.removeRequests c)[k]? = some x →
      (x.Intact T.entries ↔ k < s.safe c (removeSafe s.heap c.stack)) := by
  cases hl : c.leaf? s.heap.rd with
  | none =>
    have hrequests : s.releaseRequests c = [] := by rw [releaseRequests, hl]
    have hrelease : s.release c = .ok s := by rw [release, hl]
    have hsafe : ∀ n, s.safe c n = n := by
      intro n
      rw [safe, hl]
    rw [← hl, hsafe, hsafe]
    exact ⟨fun v raw k x hx => hs.valueRequests hc hnew hrequests hrelease v raw hx,
      fun k x hx => hs.removeRequests hc hrequests hrelease hx⟩
  | some l =>
    cases hbig : l.big with
    | false =>
      have hrequests : s.releaseRequests c = [] := by
        rw [releaseRequests, hl]
        simp [hbig]
      have hrelease : s.release c = .ok s := by
        rw [release, hl]
        simp [hbig]
      have hsafe : ∀ n, s.safe c n = n := by
        intro n
        rw [safe, hl]
        simp [hbig]
      rw [← hl, hsafe, hsafe]
      exact ⟨fun v raw k x hx => hs.valueRequests hc hnew hrequests hrelease v raw hx,
        fun k x hx => hs.removeRequests hc hrequests hrelease hx⟩
    | true =>
      obtain ⟨hturn, hle, s', F', hfree, hf⟩ := hs.freeChunk l.vdata
      have hrequests : s.releaseRequests c = s.freeChunkRequests l.vdata := by
        rw [releaseRequests, hl]
        simp [hbig]
      have hrelease : s.release c = .ok s' := by
        rw [release, hl]
        simp [hbig, hfree]
      obtain ⟨hvalue, hremove⟩ := hf.requests hc hnew hs.values.valid hl hbig
      have hsafe : ∀ n, s.safe c n = s.freeChunkSafe l.vdata := by
        intro n
        rw [safe, hl]
        simp [hbig]
      -- the trie of the free chunks turns in the first part of the requests, once and for all
      have hiff : ∀ (rest : List Txn) (k : Nat) (x : Txn),
          (∀ y ∈ rest, ¬y.Intact T.entries) → (s.freeChunkRequests l.vdata ++ rest)[k]? = some x →
          (x.Intact T.entries ↔ k < s.freeChunkSafe l.vdata) := by
        intro rest k x hrest hx
        obtain ⟨hbefore, hafter⟩ := hturn.append_after (fun _ => hle) hrest k x hx
        refine ⟨fun hintact => Nat.lt_of_not_le fun hge => hafter hge hintact, hbefore⟩
      refine ⟨?_, ?_⟩
      . intro v raw k x hx
        rw [reserveRequests, hrequests, hrelease, requestsAfter] at hx
        have hother : ¬(some l).map (fun l => (⟨l.big, l.vdata⟩ : Value)) =
            some (unwritten c v raw) := by
          simp [unwritten, hbig]
        rw [hsafe, or_iff_left hother]
        exact hiff _ k x (hvalue v raw) hx
      . intro k x hx
        rw [Txn.removeRequests, hrequests, hrelease, requestsAfter] at hx
        rw [hsafe]
        split at hx
        . exact hiff _ k x hremove hx
        . simp at hx

/-- A trie with the key `a`, and a cursor that has searched for `b`. -/
def searched : Option (Txn × Cursor) := do
  let (h, root) ← Edit.run (Heap.create Edit.areas) 0 [.value [0x61] ⟨[1], []⟩]
  let c ← (Cursor.init root).find h.rd [0x62]
  some (⟨h, root, 0, 0, fun _ => ⟨0, 0⟩⟩, c)

theorem storedValue_one (n : Nat) : storedValue n ⟨[1], []⟩ = ⟨false, [1]⟩ := by
  have hkey : u16 n % 256 < 256 := Nat.mod_lt _ (by decide)
  have hsize : modifySize 0 n 1 = 1 := by
    rw [modifySize, if_neg]
    rw [MAX_PAGE_SIZE, LeafNode.HEADER_SIZE]
    omega
  rw [storedValue, if_pos]
  exact hsize

theorem searched_holds : ∃ s c T, searched = some (s, c) ∧ s.Holds T none [] ∧
    c.Stands T (some [0x62]) ∧ T ≠ none := by
  obtain ⟨h, root, hrun, t, hstores, hroot, hrel⟩ :=
    Edit.run_represents (Edit.represents_create Edit.areas)
      (show Edit.runFits _ _ [.value [0x61] ⟨[1], []⟩] = true by decide +kernel)
  have hmap : [Edit.value [0x61] ⟨[1], []⟩].foldl Edit.apply [] = [([0x61], ⟨[1], []⟩)] := by
    decide
  rw [hmap] at hrel
  obtain ⟨e, rest, ⟨hkey, n, hvalue⟩, hrest, hentries⟩ := List.forall₂_cons_right_iff.mp hrel
  rw [List.forall₂_nil_right_iff] at hrest
  rw [storedValue_one] at hvalue
  obtain ⟨c, hfind, hcroot, hnone, hsome⟩ :=
    find_init hstores (show [0x62].length ≤ MAX_KEY_SIZE by decide)
  have ht : t ≠ none := by
    rintro rfl
    cases hentries
  rw [← hroot] at hfind
  refine ⟨⟨h, root, 0, 0, fun _ => ⟨0, 0⟩⟩, c, t, ?_, ⟨hstores, ⟨by simp, by simp, by simp⟩, hroot, rfl,
    by simp [Trie.entries], ?_⟩, ⟨hcroot, ?_, ?_⟩, ht⟩
  . rw [searched, hrun]
    simp only [Option.bind_eq_bind, Option.bind_some, hfind]
  . intro e' he' hbig
    rw [hentries, hrest, List.mem_singleton] at he'
    rw [he', hvalue] at hbig
    cases hbig
  . rintro t' ht' _ ⟨rfl⟩
    exact hsome t' ht'
  . rintro (hnil | hnil)
    . exact absurd hnil ht
    . cases hnil

/-- The pages for the new node and for the copy of the leaf can be had, a queue for the old page
too. -/
theorem allocationFailure_intact : ∃ s c T x, searched = some (s, c) ∧ T ≠ none ∧
    (s.reserveRequests c ⟨[2], []⟩ fun _ => 0)[2]? = some x ∧ x.Intact (Trie.entries T) := by
  obtain ⟨s, c, T, hsearched, hs, hc, hT⟩ := searched_holds
  have hcheck : searched.map (fun p => decide (2 < (p.1.reserveRequests p.2 ⟨[2], []⟩ fun _ => 0).length
      ∧ 2 < p.1.safe p.2 (valueSafe p.1.heap p.2))) = some true := by decide +kernel
  rw [hsearched, Option.map_some, Option.some.injEq, decide_eq_true_eq] at hcheck
  refine ⟨s, c, T, _, hsearched, hT, List.getElem?_eq_getElem hcheck.1, ?_⟩
  exact ((allocationFailure hs hc (fun hnil => absurd hnil hT)).1 _ _ 2 _
    (List.getElem?_eq_getElem hcheck.1)).mpr (Or.inl hcheck.2)

/-- There is no page for the new leaf, and the link to it has been left open. -/
theorem allocationFailure_torn : ∃ s c T x, searched = some (s, c) ∧ s.Holds T none [] ∧
    c.Stands T (some [0x62]) ∧
    (s.reserveRequests c ⟨[2], []⟩ fun _ => 0)[3]? = some x ∧ ¬x.Intact (Trie.entries T) := by
  obtain ⟨s, c, T, hsearched, hs, hc, hT⟩ := searched_holds
  have hcheck : searched.map (fun p => decide (3 < (p.1.reserveRequests p.2 ⟨[2], []⟩ fun _ => 0).length
      ∧ ¬3 < valueSafe p.1.heap p.2 ∧ p.2.leaf? p.1.heap.rd = none)) = some true := by
    decide +kernel
  rw [hsearched, Option.map_some, Option.some.injEq, decide_eq_true_eq] at hcheck
  obtain ⟨hlen, hsafe, hleaf⟩ := hcheck
  refine ⟨s, c, T, _, hsearched, hs, hc, List.getElem?_eq_getElem hlen, ?_⟩
  rw [hs.valueRequests hc (fun hnil => absurd hnil hT) (by rw [releaseRequests, hleaf])
    (by rw [release, hleaf]) ⟨[2], []⟩ (fun _ => 0) (List.getElem?_eq_getElem hlen), hleaf]
  simp [hsafe]

end Txn
end Leaves
