import Leaves.Db.Requests
import Leaves.Db.Lemmas.Remove
import Leaves.Trie.Reading
import Leaves.Lib.Turning

/-!
What the pages look like in front of a request: as before the change until a link is written, from
there on the root leads to something else.
-/

namespace Leaves

/-- The pages `l` and the root are as they were. -/
structure Untouched (h : Heap) (root : Addr) (l : List Addr) (x : Request) : Prop where
  page : ∀ b ∈ l, x.1.page b = h.page b
  root : x.2 = root

/-- The root leads to a null offset. The pages `o` are as they were. -/
structure Torn (h : Heap) (o : List Addr) (x : Request) : Prop where
  page : ∀ b ∈ o, x.1.page b = h.page b
  path : ∃ s p, Path.Stored x.1.rd (s :: p) 0 ∧ x.2 = Path.top (s :: p) 0 ∧ x.2 ≠ 0

/-- The root does not lead to the entries `es`. The pages `o` are as they were. -/
structure Differs (h : Heap) (es : List (Key × Value)) (o : List Addr) (x : Request) : Prop where
  page : ∀ b ∈ o, x.1.page b = h.page b
  reads : ¬ReadsAs x.1.rd x.2 es

theorem Untouched.refl (h : Heap) (root : Addr) (l : List Addr) : Untouched h root l (h, root) :=
  ⟨fun _ _ => rfl, rfl⟩

theorem Untouched.of_page {h h' : Heap} {root : Addr} {l l' : List Addr} {x : Request}
    (hx : Untouched h' root l x) (hsub : ∀ b ∈ l', b ∈ l) (h' : ∀ b ∈ l', h'.page b = h.page b) :
    Untouched h root l' x :=
  ⟨fun b hb => (hx.page b (hsub b hb)).trans (h' b hb), hx.root⟩

theorem Torn.of_page {h h' : Heap} {o : List Addr} {x : Request} (hx : Torn h' o x)
    (hpage : ∀ b ∈ o, h'.page b = h.page b) : Torn h o x :=
  ⟨fun b hb => (hx.page b hb).trans (hpage b hb), hx.path⟩

theorem Torn.differs {h : Heap} {o : List Addr} {x : Request} (hx : Torn h o x)
    (es : List (Key × Value)) : Differs h es o x := by
  obtain ⟨s, p, hp, hroot, hne⟩ := hx.path
  exact ⟨hx.page, Trie.not_readsAs_of_null hp hroot hne es⟩

/-- The root leads to a null offset, or a leaf has lost its flag. -/
def Broken (h : Heap) (es : List (Key × Value)) (o : List Addr) (x : Request) : Prop :=
  Torn h o x ∨ (∃ e ∈ es, e.2.big = true) ∧ Differs h es o x

theorem Broken.differs {h : Heap} {es : List (Key × Value)} {o : List Addr} {x : Request}
    (hx : Broken h es o x) : Differs h es o x := by
  rcases hx with hx | hx
  . exact hx.differs es
  . exact hx.2

theorem Path.top_mem_addrs (s : Step) (p : Path) (a : Addr) :
    Path.top (s :: p) a ∈ Path.addrs (s :: p) := by
  induction p generalizing s a with
  | nil => simp [Path.top]
  | cons s' p ih =>
    rw [Path.addrs_cons]
    exact List.mem_append_right _ (ih s' s.addr)

/-- A page that is in use is not handed out. -/
theorem Heap.Uses.not_free {h : Heap} {l : List Addr} (hu : h.Uses l) : ∀ a ∈ l, ¬h.Free a :=
  fun a ha hfree => hu.not_avail a ha (MemManager.Free.avail hfree)

namespace Cursor

section Relink

theorem relinkSafe_congr {h h' : Heap} {fs : List Transition}
    (heq : ∀ f ∈ fs, h'.needsCow f.node = h.needsCow f.node) :
    relinkSafe h' fs = relinkSafe h fs := by
  rw [relinkSafe, relinkSafe]
  congr 2
  induction fs with
  | nil => rfl
  | cons f fs ih =>
    rw [List.forall_mem_cons] at heq
    rw [List.takeWhile_cons, List.takeWhile_cons, heq.1, ih heq.2]

theorem Carries.node_mem {fs : List Transition} {p : Path} (h : Carries fs p) :
    ∀ f ∈ fs, f.node ∈ p.addrs := by
  induction h with
  | nil => simp
  | @cons f s fs p hf _ ih =>
    intro g hg
    rw [Path.addrs_cons, List.cons_append, List.mem_cons]
    rcases List.mem_cons.mp hg with rfl | hg
    . exact Or.inl hf.1
    . exact Or.inr (List.mem_append_right _ (ih g hg))

/-- `relink` writes its links after its last request. -/
theorem relinkRequests_untouched {p : Path} {h : Heap} {fs : List Transition} {r : Addr}
    {o l : List Addr} (hu : h.Uses (p.addrs ++ o)) (hfs : Carries fs p)
    (hl : ∀ b ∈ l, ¬h.Free b) :
    (∀ x ∈ relinkRequests h r fs, Untouched h r l x) ∧
      (relinkRequests h r fs).length = relinkSafe h fs := by
  induction p generalizing h fs o with
  | nil =>
    cases hfs
    exact ⟨by simp [relinkRequests], rfl⟩
  | cons s p ih =>
    cases hfs with
    | @cons f _ fs _ hf hfs =>
      rw [relinkRequests, relinkSafe, List.takeWhile_cons, hf.1]
      cases howned : h.needsCow s.addr with
      | false => exact ⟨by simp, rfl⟩
      | true =>
        obtain ⟨copy, h1, hcopy, -, ha, -⟩ := Heap.copyPage_allocates hu (a := s.addr) (by simp)
        have hperm : (copy :: (Path.addrs (s :: p) ++ o)).Perm (s.addr :: (Path.addrs p ++
            (copy :: (Tree.branchAddrs s.left ++ Tree.branchAddrs s.right) ++ o))) := by
          refine List.perm_iff_count.mpr (fun x => ?_)
          simp only [Path.addrs_cons, List.count_append, List.count_cons]
          omega
        have hu2 := Heap.free_uses (ha.uses.perm hperm)
        have hkeeps := ha.keeps.trans (Heap.free_keeps ha.uses.recycle s.addr)
        have hpage : ∀ b ∈ l, h1.page b = h.page b := fun b hb => ha.page_of_not_free (hl b hb)
        have hpath : ∀ b ∈ Path.addrs p, h1.page b = h.page b :=
          fun b hb => ha.page_of_not_free (hu.not_free b (by simp [hb]))
        obtain ⟨hx, hlen⟩ := ih hu2 hfs (fun b hb hfree => hl b hb (hkeeps.free b hfree))
        have hsafe : relinkSafe (h1.free s.addr) fs = relinkSafe h fs := by
          refine relinkSafe_congr fun g hg => ?_
          rw [Heap.needsCow, Heap.needsCow, Heap.page_free, hpath _ (Carries.node_mem hfs g hg), hkeeps.txnId]
        simp only [hcopy, requestsAfter, ↓reduceIte]
        refine ⟨?_, ?_⟩
        . rw [List.forall_mem_cons, List.forall_mem_cons]
          refine ⟨.refl h r l, ⟨hpage, rfl⟩, ?_⟩
          exact fun x hmem => (hx x hmem).of_page (fun _ hb => hb) hpage
        . rw [List.length_cons, List.length_cons, hlen, hsafe, relinkSafe, List.length_cons]
          omega

end Relink

section Leaf

variable {h : Heap} {c : Cursor} {s : Step} {p : Path} {o : List Addr}

/-- The branch that is open has the null offset. -/
theorem Hole.torn (hole : Hole h c s p o) (hroot : c.root = Path.top (s :: p) 0) :
    Torn h o (h, c.root) := by
  refine ⟨fun _ _ => rfl, s, p, hole.stored, hroot, ?_⟩
  have hmem := Path.top_mem_addrs s p 0
  rw [hroot]
  exact hole.uses.ne_zero _ (List.mem_append_left _ hmem)

theorem createBigkeyRequests_torn {n : Nat} (hole : Hole h c s p o)
    (hroot : c.root = Path.top (s :: p) 0) :
    ∀ x ∈ createBigkeyRequests n h c, Torn h o x := by
  induction n generalizing h c s p with
  | zero => simp [createBigkeyRequests]
  | succ n ih =>
    rw [createBigkeyRequests]
    split
    . simp
    next hlen =>
      obtain ⟨trie, h1, h2, s1, halloc, hpush, hole1, hgrown, -⟩ :=
        createBigkey_step hole (by omega)
      have hroot1 : (c.push trie).fillBigkey.root = Path.top (s1 :: s :: p) 0 := by
        rw [hgrown.root, hroot]
        rfl
      simp only [halloc, requestsAfter, hpush]
      rw [List.forall_mem_cons]
      refine ⟨hole.torn hroot, ?_⟩
      exact fun x hx => (ih hole1 hroot1 x hx).of_page hgrown.page

/-- From the link to the new node on there is an open branch until the leaf hangs under it. -/
theorem createLeafRequests_torn (hole : Hole h c s p o) (hroot : c.root = Path.top (s :: p) 0) :
    ∀ x ∈ createLeafRequests h c, Torn h o x := by
  obtain ⟨h1, c1, q, s1, p1, hbig, hp, hole1, hgrown, -⟩ :=
    createBigkey_grown hole (Nat.le_refl _)
  have hroot1 : c1.root = Path.top (s1 :: p1) 0 := by
    rw [hgrown.root, hroot, hp, top_append]
    rfl
  intro x hx
  rw [createLeafRequests, hbig, requestsAfter, List.mem_append, List.mem_singleton] at hx
  rcases hx with hx | rfl
  . exact createBigkeyRequests_torn hole hroot x hx
  . exact (hole1.torn hroot1).of_page hgrown.page

end Leaf

section Value

variable {h : Heap} {c : Cursor} {s : Stop} {t : Tree} {K : Key} {o l : List Addr} {v : Value}
  {f : Transition}

/-- The requests from the one in front of the free of the old node on. -/
theorem Ready.requests {cs : Key} {arr : List (Branch × Tree)} {key : Branch} {trie : Addr}
    (ready : Ready (h.free f.node) c s cs arr key trie o) (room : s.Room cs arr key)
    (hwf : s.path.WF) (hlink : f.linkIdx = (Branches.below arr key).length)
    (hl : ∀ b ∈ l, ¬(h.free f.node).Free b) :
    Turns (1 + relinkSafe h (frames s.path)) (Untouched h c.root l) (Torn h o)
        (replaceNodeRequests h c f (frames s.path) trie) ∧
      1 + relinkSafe h (frames s.path) ≤ (replaceNodeRequests h c f (frames s.path) trie).length := by
  obtain ⟨h1, c1, p, heq, -, hole, -, hpage, hroot, -⟩ := ready.hole room hwf hlink
  obtain ⟨hx, hlen⟩ := relinkRequests_untouched (r := c.root) ready.uses
    (carries_frames s.path) hl
  have hsafe : relinkSafe (h.free f.node) (frames s.path) = relinkSafe h (frames s.path) := rfl
  rw [hsafe] at hlen
  have htorn : ∀ x ∈ createLeafRequests h1 c1, Torn h o x :=
    fun x hmem => (createLeafRequests_torn hole hroot x hmem).of_page hpage
  rw [replaceNodeRequests, heq, requestsAfter, ← hlen]
  refine ⟨?_, ?_⟩
  . have hquiet : ∀ x ∈ relinkRequests (h.free f.node) c.root (frames s.path),
        Untouched h c.root l x :=
      fun x hmem => ⟨(hx x hmem).page, (hx x hmem).root⟩
    rw [Nat.add_comm]
    exact Turns.cons (.refl h c.root l) (Turns.append hquiet (Turns.of_after htorn))
  . simp only [List.length_cons, List.length_append]
    omega

/-- The pages of a trie that ends with a node, as they are around the node. -/
theorem mem_plug_node {p : Path} {a : Addr} {k : Key} {arr : List (Branch × Tree)} {x : Addr} :
    x ∈ (p.plug (.node a k arr)).addrs ++ o ↔
      x ∈ p.addrs ++ (a :: (Tree.branchAddrs arr ++ o)) := by
  have hperm := (Path.perm_plug p (.node a k arr)).append_right o
  rw [Tree.addrs_node, List.append_assoc, List.cons_append] at hperm
  exact hperm.mem_iff

/-- The nodes above `s` are copied or not, as before the change. -/
theorem relinkSafe_frames {h' : Heap} (htxn : h'.txnId = h.txnId)
    (hpage : ∀ b ∈ s.path.addrs, h'.page b = h.page b) :
    relinkSafe h' (frames s.path) = relinkSafe h (frames s.path) := by
  refine relinkSafe_congr fun g hg => ?_
  rw [Heap.needsCow, Heap.needsCow, hpage _ (Carries.node_mem (carries_frames s.path) g hg), htxn]

/-- The leaf of the key is replaced without a write to what the root leads to before the last link.
-/
theorem changeLeafRequests_hit (hh : h.Holds t o) (hends : s.Ends t K) {a : Addr} {v0 : Value}
    (htree : s.tree = .leaf a s.suffix v0) (hnode : f.node = a) (hcmp : f.cmp = 0) :
    (∀ x ∈ changeLeafRequests h c f (frames s.path) ⟨s.suffix, v0.big, v0.bytes⟩ v,
        Untouched h c.root (t.addrs ++ o) x) ∧
      (changeLeafRequests h c f (frames s.path) ⟨s.suffix, v0.big, v0.bytes⟩ v).length ≤
        2 + relinkSafe h (frames s.path) ∧
      (fitsPage (LeafNode.sizeOf s.suffix.length v.bytes.length) = true →
        2 + relinkSafe h (frames s.path) ≤
          (changeLeafRequests h c f (frames s.path) ⟨s.suffix, v0.big, v0.bytes⟩ v).length) := by
  have hplug := hends.plug
  rw [htree] at hplug
  have hu := (hplug ▸ hh).uses_plug
  rw [Tree.addrs_leaf, List.singleton_append] at hu
  rw [changeLeafRequests, if_pos hcmp]
  by_cases hfits : fitsPage (LeafNode.sizeOf s.suffix.length v.bytes.length) = true
  . obtain ⟨b, h1, halloc, ha, -⟩ := Heap.allocNode_allocates hu hfits
      (.leaf ⟨s.suffix, v.big, v.bytes⟩)
    have hl := hh.uses.not_free
    have hkeeps := ha.keeps.trans (Heap.free_keeps ha.uses.recycle a)
    have hpage : ∀ x ∈ t.addrs ++ o, h1.page x = h.page x :=
      fun x hx => ha.page_of_not_free (hl x hx)
    have hpath : ∀ x ∈ s.path.addrs, h1.page x = h.page x :=
      fun x hx => ha.page_of_not_free (hu.not_free x (List.mem_append_left _ hx))
    have hu1 : (h1.free a).Uses (s.path.addrs ++ (b :: o)) := by
      refine Heap.free_uses (ha.uses.perm (List.perm_iff_count.mpr fun x => ?_))
      simp only [List.count_cons, List.count_append]
      omega
    obtain ⟨hx, hlen⟩ := relinkRequests_untouched (r := c.root) hu1 (carries_frames s.path)
      (fun x hmem hfree => hl x hmem (hkeeps.free x hfree))
    have hsafe : relinkSafe (h1.free a) (frames s.path) = relinkSafe h (frames s.path) :=
      relinkSafe_frames hkeeps.txnId hpath
    simp only [fillLeaf, halloc, requestsAfter, hnode]
    refine ⟨?_, ?_, fun _ => ?_⟩
    . rw [List.forall_mem_cons, List.forall_mem_cons]
      refine ⟨.refl h c.root _, ⟨hpage, rfl⟩, ?_⟩
      exact fun x hmem => (hx x hmem).of_page (fun _ hb => hb) hpage
    . rw [List.length_cons, List.length_cons, hlen, hsafe]
      omega
    . rw [List.length_cons, List.length_cons, hlen, hsafe]
      omega
  . rw [Bool.not_eq_true] at hfits
    simp only [fillLeaf, Heap.allocNode_of_not_fits h hfits, requestsAfter]
    refine ⟨?_, by simp; omega, fun hfits' => absurd (hfits.symm.trans hfits') (by decide)⟩
    rw [List.forall_mem_singleton]
    exact .refl h c.root _

/-- What the root leads to while the flag of a leaf is cleared and the leaf is still there. -/
theorem cleared_differs {p : Path} {a : Addr} {k : Key} {v0 : Value} {x : Request}
    (hh : h.Holds (p.plug (.leaf a k v0)) o) (hbig : v0.big = true)
    (hroot : x.2 = (p.plug (.leaf a k v0)).addr)
    (hpage : ∀ b ∈ p.addrs ++ (a :: o), x.1.page b =
      if b = a then { h.page a with node := .leaf ⟨k, false, v0.bytes⟩ } else h.page b) :
    Differs h (p.plug (.leaf a k v0)).entries o x := by
  have hu := hh.uses_plug
  rw [Tree.addrs_leaf, List.singleton_append] at hu
  have hna := (List.nodup_cons.mp (hu.perm List.perm_middle).nodup).1
  have hne : ∀ b ∈ p.addrs ++ o, b ≠ a := fun b hb heq => hna (heq ▸ hb)
  obtain ⟨hst, -⟩ := Path.stored_plug.mp hh.stored
  obtain ⟨hpwf, hfits, hlwf⟩ := Path.wf_plug.mp hh.wf
  have hread : Trie.Read x.1.rd x.2 (some (p.plug (.leaf a k ⟨false, v0.bytes⟩))) := by
    refine ⟨⟨?_, ?_, ?_⟩, ?_, ?_⟩
    . rintro _ ⟨rfl⟩
      rw [Path.addr_plug]
      have := hh.uses.ne_zero _ (List.mem_append_left _ (Tree.addr_mem_addrs _))
      rwa [Path.addr_plug] at this
    . rintro _ ⟨rfl⟩
      exact Path.wf_plug.mpr ⟨hpwf, hfits.congr rfl fun _ => rfl, hlwf⟩
    . rintro _ ⟨rfl⟩
      refine Path.stored_plug.mpr ⟨hst.congr fun b hb => ?_, Tree.stored_leaf.mpr ?_⟩
      . rw [Heap.rd, hpage b (List.mem_append_left _ hb), if_neg (hne b (by simp [hb]))]
        rfl
      . rw [Heap.rd, hpage a (by simp), if_pos rfl]
    . rw [hroot, Path.addr_plug]
      exact (Path.addr_plug p (.leaf a k ⟨false, v0.bytes⟩)).symm
    . intro b hb
      have hperm := Path.perm_plug p (.leaf a k ⟨false, v0.bytes⟩)
      have hb := hperm.mem_iff.mp hb
      rw [Tree.addrs_leaf, List.mem_append, List.mem_singleton] at hb
      refine hu.ne_zero b ?_
      simp only [List.mem_append, List.mem_cons]
      tauto
  refine ⟨fun b hb => ?_, ?_⟩
  . rw [hpage b (by simp [hb]), if_neg (hne b (by simp [hb]))]
  . rw [hread.readsAs_iff, Trie.entries, Path.entries_plug, Path.entries_plug]
    intro heq
    have hval := List.append_cancel_right heq
    have hval := List.append_cancel_left hval
    simp only [Tree.entries_leaf, Tree.behind, List.map_cons, List.map_nil, List.cons.injEq,
      Prod.mk.injEq, and_true, true_and] at hval
    rw [← hval] at hbig
    cases hbig

theorem changeLeafRequests_miss (hh : h.Holds t o) (hends : s.Ends t K) (hc : c.Stopped s)
    (hroot : c.root = t.addr) {a : Addr} {k : Key} {v0 : Value} (htree : s.tree = .leaf a k v0)
    (hne : s.suffix ≠ k) (hnode : f.node = a) (hcmp : f.cmp ≠ 0) (hpre : f.prefixLen = s.prefixLen) :
    Turns (if v0.big then 1 else 3 + relinkSafe h (frames s.path)) (Untouched h c.root (t.addrs ++ o))
        (Broken h t.entries o)
        (changeLeafRequests h c f (frames s.path) ⟨k, v0.big, v0.bytes⟩ v) ∧
      (if v0.big then 1 else 3 + relinkSafe h (frames s.path)) ≤
        (changeLeafRequests h c f (frames s.path) ⟨k, v0.big, v0.bytes⟩ v).length := by
  have hplug := hends.plug
  rw [htree] at hplug
  subst hplug
  obtain ⟨hpwf, -, -⟩ := Path.wf_plug.mp hh.wf
  have hu := hh.uses_plug
  rw [Tree.addrs_leaf, List.singleton_append] at hu
  have hna := (List.nodup_cons.mp (hu.perm List.perm_middle).nodup).1
  have hmem : ∀ x, x ∈ (s.path.plug (.leaf a k v0)).addrs ++ o ↔ x ∈ s.path.addrs ++ (a :: o) := by
    intro x
    have hperm := (Path.perm_plug s.path (.leaf a k v0)).append_right o
    rw [Tree.addrs_leaf, List.append_assoc, List.singleton_append] at hperm
    exact hperm.mem_iff
  obtain ⟨okey, hokey⟩ : ∃ okey, okey = (k.drop s.prefixLen).head? := ⟨_, rfl⟩
  obtain ⟨copy, h1, trie, h2, hcopy, halloc, room, ready, -, hfree, htxn, hpage1, hpage2⟩ :=
    changeLeaf_ready hh hends hc hroot htree hne hokey
  obtain ⟨hturn, hlen⟩ := Ready.requests (l := s.path.addrs ++ (a :: o))
    (f := { f with cmp := 0, linkIdx := TrieNode.index2 okey s.rest.head? })
    (by rw [hnode]; exact ready) room hpwf (index2_eq _ _ _)
    (by rw [hnode]; exact fun b hb hfr => hu.not_free b hb (hfree b hfr))
  have hpath : ∀ b ∈ s.path.addrs, h2.page b = h.page b := by
    intro b hb
    have hba : b ≠ a := by
      rintro rfl
      exact hna (List.mem_append_left _ hb)
    rw [hpage2 b (List.mem_append_left _ hb), hpage1 b (List.mem_append_left _ hb),
      if_neg fun heq => hba heq.1]
  have ho : ∀ b ∈ o, h2.page b = h.page b := by
    intro b hb
    have hba : b ≠ a := by
      rintro rfl
      exact hna (List.mem_append_right _ hb)
    rw [hpage2 b (by simp [hb]), hpage1 b (by simp [hb]), if_neg fun heq => hba heq.1]
  have hsafe : relinkSafe h2 (frames s.path) = relinkSafe h (frames s.path) :=
    relinkSafe_frames htxn hpath
  rw [hsafe] at hturn hlen
  simp only [hpre, hnode] at hturn hlen
  rw [changeLeafRequests, if_neg hcmp]
  simp only [hpre, hnode, hcopy, requestsAfter, ← hokey, hc.restKey, halloc]
  refine ⟨?_, ?_⟩
  . cases hbig : v0.big with
    | false =>
      have hsame : ∀ b ∈ s.path.addrs ++ (a :: o), h2.page b = h.page b := by
        intro b hb
        rw [hpage2 b hb, hpage1 b hb, if_neg (by simp [hbig])]
      have hsame1 : ∀ b ∈ s.path.addrs ++ (a :: o), h1.page b = h.page b := by
        intro b hb
        rw [hpage1 b hb, if_neg (by simp [hbig])]
      rw [if_neg (by decide), show 3 + relinkSafe h (frames s.path) =
        1 + relinkSafe h (frames s.path) + 1 + 1 by omega]
      refine Turns.cons (.refl h _ _) (Turns.cons ⟨fun b hb => hsame1 b ((hmem b).mp hb), rfl⟩
        (hturn.mono (fun x hx => ?_) (fun x hx => ?_)))
      . exact hx.of_page (fun b hb => (hmem b).mp hb) (fun b hb => hsame b ((hmem b).mp hb))
      . exact Or.inl (hx.of_page ho)
    | true =>
      have hcleared : ∀ x : Request, Untouched h2 c.root (s.path.addrs ++ (a :: o)) x →
          Differs h (s.path.plug (.leaf a k v0)).entries o x := by
        intro x hx
        refine cleared_differs hh hbig (hx.root.trans hroot) fun b hb => ?_
        rw [hx.page b hb, hpage2 b hb, hpage1 b hb]
        simp [hbig]
      have hentry : ∃ e ∈ (s.path.plug (.leaf a k v0)).entries, e.2.big = true := by
        refine ⟨(s.path.str ++ k, v0), ?_, hbig⟩
        rw [Path.entries_plug]
        simp [Tree.behind]
      rw [if_pos rfl]
      refine Turns.cons (.refl h _ _) (Turns.of_after ?_)
      rw [List.forall_mem_cons]
      refine ⟨Or.inr ⟨hentry, hcleared _ ⟨fun b hb => (hpage2 b hb).symm, rfl⟩⟩, fun x hx => ?_⟩
      obtain ⟨i, hi⟩ := List.mem_iff_getElem?.mp hx
      obtain ⟨hbefore, hafter⟩ := hturn i x hi
      by_cases hlt : i < 1 + relinkSafe h (frames s.path)
      . exact Or.inr ⟨hentry, hcleared x (hbefore hlt)⟩
      . exact Or.inl ((hafter (by omega)).of_page ho)
  . rw [List.length_cons, List.length_cons]
    split <;> omega

theorem splitCompressedRequests_turn (hh : h.Holds t o) (hends : s.Ends t K) (hc : c.Stopped s)
    (hroot : c.root = t.addr) {a : Addr} {k : Key} {arr : List (Branch × Tree)}
    (htree : s.tree = .node a k arr) (hlt : s.prefixLen < k.length) (hnode : f.node = a)
    (hpre : f.prefixLen = s.prefixLen) :
    Turns (3 + relinkSafe h (frames s.path)) (Untouched h c.root (t.addrs ++ o))
        (Broken h t.entries o)
        (splitCompressedRequests h c f (frames s.path) ⟨k, Branches.mapSnd Tree.addr arr⟩) ∧
      3 + relinkSafe h (frames s.path) ≤
        (splitCompressedRequests h c f (frames s.path) ⟨k, Branches.mapSnd Tree.addr arr⟩).length := by
  have hplug := hends.plug
  rw [htree] at hplug
  subst hplug
  obtain ⟨hpwf, -, -⟩ := Path.wf_plug.mp hh.wf
  obtain ⟨okey, hokey⟩ : ∃ okey, okey = (k.drop s.prefixLen).head? := ⟨_, rfl⟩
  obtain ⟨child, h1, trie, h2, halloc1, halloc2, room, ready, hkeeps, hpage1, hpage2⟩ :=
    splitCompressed_ready hh hends hc hroot htree hlt hokey
  have hnote : (c.noteBranch (frames s.path).length s.rest.head?).root = c.root := by
    cases s.rest.head? <;> rfl
  have hl := hh.uses.not_free
  obtain ⟨hturn, hlen⟩ := Ready.requests (l := (s.path.plug (.node a k arr)).addrs ++ o)
    (f := { f with linkIdx := TrieNode.index2 okey s.rest.head? })
    (by rw [hnode]; exact ready) room hpwf (index2_eq _ _ _)
    (by rw [hnode]; exact fun b hb hfr => hl b hb (hkeeps.free b hfr))
  have hsafe : relinkSafe h2 (frames s.path) = relinkSafe h (frames s.path) :=
    relinkSafe_frames hkeeps.txnId fun b hb => hpage2 b (List.mem_append_left _ hb)
  rw [hsafe, hnote] at hturn
  rw [hsafe] at hlen
  simp only [hpre, hnode] at hturn hlen
  rw [splitCompressedRequests]
  simp only [hpre, TrieNode.len, TrieNode.createPrefix, halloc1, requestsAfter, ← hokey, hc.restKey,
    halloc2, hnode, hnote]
  refine ⟨?_, ?_⟩
  . rw [show 3 + relinkSafe h (frames s.path) = 1 + relinkSafe h (frames s.path) + 1 + 1 by omega]
    refine Turns.cons (.refl h _ _) (Turns.cons ⟨fun b hb => hpage1 b (mem_plug_node.mp hb), rfl⟩
      (hturn.mono (fun x hx => ?_) (fun x hx => ?_)))
    . exact hx.of_page (fun b hb => hb) (fun b hb => hpage2 b (mem_plug_node.mp hb))
    . exact Or.inl (hx.of_page fun b hb => hpage2 b (by simp [hb]))
  . rw [List.length_cons, List.length_cons]
    omega

/-- In place the node is changed before the first request. -/
theorem addToArrayRequests_turn (hh : h.Holds t o) (hends : s.Ends t K) (hc : c.Stopped s)
    (hroot : c.root = t.addr) {a : Addr} {k : Key} {arr : List (Branch × Tree)}
    (htree : s.tree = .node a k arr) (hlen : s.prefixLen = k.length)
    (hset : Branches.isset arr s.rest.head? = false)
    (hbranch : ∀ b, s.rest.head? = some b → c.branchKey s.path.length = b) (hnode : f.node = a) :
    let n := if AddsInPlace h c f (frames s.path) ⟨k, Branches.mapSnd Tree.addr arr⟩ then 0
      else 2 + relinkSafe h (frames s.path)
    Turns n (Untouched h c.root (t.addrs ++ o)) (Broken h t.entries o)
        (addToArrayRequests h c f (frames s.path) ⟨k, Branches.mapSnd Tree.addr arr⟩) ∧
      n ≤ (addToArrayRequests h c f (frames s.path) ⟨k, Branches.mapSnd Tree.addr arr⟩).length := by
  have hplug := hends.plug
  rw [htree] at hplug
  subst hplug
  obtain ⟨hpwf, -, -⟩ := Path.wf_plug.mp hh.wf
  have room := Stop.room_missing hends hh.wf htree hlen hset
  have hadd : TrieNode.addIndex ⟨k, Branches.mapSnd Tree.addr arr⟩ s.rest.head? =
      (Branches.below arr s.rest.head?).length := by
    simp [TrieNode.addIndex]
  rw [addToArrayRequests, missing_branch hc hbranch, hadd]
  simp only [hnode]
  split
  next hown =>
    rw [AddsInPlace, hnode] at hown
    obtain ⟨hole, hpage⟩ := inPlace_hole
      (f := { f with cmp := 0, node := a, linkIdx := (Branches.below arr s.rest.head?).length })
      hh hends hc htree room hlen hbranch rfl rfl hown.1
      ({ h.page a with
        used := TrieNode.incrementSize ⟨k, Branches.mapSnd Tree.addr arr⟩ s.rest.head?,
        node := .trie (TrieNode.createAdd ⟨k, Branches.mapSnd Tree.addr arr⟩ s.rest.head?) })
      rfl rfl rfl
    refine ⟨Turns.of_after fun x hx => ?_, Nat.zero_le _⟩
    have htorn := createLeafRequests_torn hole ?_ x hx
    . exact Or.inl (htorn.of_page hpage)
    . rw [hroot, Path.addr_plug]
      rfl
  next =>
    obtain ⟨trie, h1, halloc, ready, hkeeps, hpage⟩ :=
      addToArray_ready hh hends hc hroot htree hlen hset hbranch
    have hl := hh.uses.not_free
    obtain ⟨hturn, hle⟩ := Ready.requests (l := (s.path.plug (.node a k arr)).addrs ++ o)
      (f := { f with cmp := 0, node := a, linkIdx := (Branches.below arr s.rest.head?).length })
      ready room hpwf rfl (fun b hb hfr => hl b hb (hkeeps.free b hfr))
    have hsafe : relinkSafe h1 (frames s.path) = relinkSafe h (frames s.path) :=
      relinkSafe_frames hkeeps.txnId fun b hb => hpage b (List.mem_append_left _ hb)
    rw [hsafe] at hturn hle
    simp only [halloc, requestsAfter]
    refine ⟨?_, ?_⟩
    . rw [show 2 + relinkSafe h (frames s.path) = 1 + relinkSafe h (frames s.path) + 1 by omega]
      refine Turns.cons (.refl h _ _) (hturn.mono (fun x hx => ?_) (fun x hx => ?_))
      . exact hx.of_page (fun b hb => hb) (fun b hb => hpage b (mem_plug_node.mp hb))
      . exact Or.inl (hx.of_page fun b hb => hpage b (by simp [hb]))
    . rw [List.length_cons]
      omega

section Cases

variable {fs : List Transition} {n : TrieNode}

theorem valueRequests_leaf (hstack : c.stack = f :: fs) {l : LeafNode} (hrd : h.rd f.node = .leaf l)
    (v : Value) :
    valueRequests h c v = changeLeafRequests h c f fs l v ∧
      valueSafe h c = if f.cmp = 0 then 2 + relinkSafe h fs else
        if l.big then 1 else 3 + relinkSafe h fs := by
  rw [valueRequests, valueSafe, hstack]
  simp only [hrd, and_self]

theorem valueRequests_add (hstack : c.stack = f :: fs) (hrd : h.rd f.node = .trie n)
    (hlen : f.prefixLen = n.len) (v : Value) :
    valueRequests h c v = addToArrayRequests h c f fs n ∧
      valueSafe h c = if AddsInPlace h c f fs n then 0 else 2 + relinkSafe h fs := by
  rw [valueRequests, valueSafe, hstack]
  simp only [hrd, hlen, ↓reduceIte, and_self]

theorem valueRequests_split (hstack : c.stack = f :: fs) (hrd : h.rd f.node = .trie n)
    (hlen : f.prefixLen ≠ n.len) (v : Value) :
    valueRequests h c v = splitCompressedRequests h c f fs n ∧
      valueSafe h c = 3 + relinkSafe h fs := by
  rw [valueRequests, valueSafe, hstack]
  simp only [hrd, hlen, ↓reduceIte, and_self]

end Cases

/-- Before something is written that the root leads to, the trie is as it was, from then on it is
not. -/
theorem valueRequests_turn (hh : h.Holds t o) (hends : s.Ends t K) (hc : c.Stopped s)
    (hroot : c.root = t.addr) (v : Value) :
    Turns (valueSafe h c) (Untouched h c.root (t.addrs ++ o)) (Broken h t.entries o)
        (valueRequests h c v) ∧
      (fitsPage (LeafNode.sizeOf (newLeafKey s).length v.bytes.length) = true →
        valueSafe h c ≤ (valueRequests h c v).length) ∧
      (s.cmp = 0 → (valueRequests h c v).length ≤ valueSafe h c) := by
  obtain ⟨idx, hstack⟩ := hc.stack
  have hst := (Path.stored_plug.mp (hends.plug ▸ hh.stored)).2
  match htree : s.tree with
  | .leaf a k v0 =>
    rw [htree] at hst hstack
    obtain ⟨hrequests, hsafe⟩ := valueRequests_leaf hstack (Tree.stored_leaf.mp hst) v
    rw [hrequests, hsafe]
    by_cases hkey : s.suffix = k
    . obtain ⟨hcmp, -⟩ := hends.hit htree hkey
      have hlabel : newLeafKey s = s.suffix := by
        rw [newLeafKey, if_pos hcmp, htree, hkey]
        rfl
      rw [if_pos hcmp, hlabel]
      rw [← hkey] at htree ⊢
      obtain ⟨hx, hle, hge⟩ := changeLeafRequests_hit (c := c) (v := v) hh hends htree
        (f := ⟨a, s.prefixLen, u16 s.path.str.length, s.cmp, idx⟩) rfl hcmp
      exact ⟨Turns.of_before hx hle, hge, fun _ => hle⟩
    . have hcmp : s.cmp ≠ 0 := hends.miss htree hkey
      rw [if_neg hcmp]
      obtain ⟨hturn, hle⟩ := changeLeafRequests_miss (v := v) hh hends hc hroot htree hkey
        (f := ⟨a, s.prefixLen, u16 s.path.str.length, s.cmp, idx⟩) rfl hcmp rfl
      exact ⟨hturn, fun _ => hle, fun hzero => absurd hzero hcmp⟩
  | .node a k arr =>
    rw [htree] at hst hstack
    have hrd := (Tree.stored_node.mp hst).1
    have hcmp : s.cmp ≠ 0 := hends.cmp_ne_zero htree
    by_cases hlen : s.prefixLen = k.length
    . obtain ⟨hrequests, hsafe⟩ := valueRequests_add hstack hrd hlen v
      rw [hrequests, hsafe]
      have hbranch : ∀ b, s.rest.head? = some b → c.branchKey s.path.length = b := by
        intro b hb
        obtain ⟨w, hw⟩ : ∃ w, s.rest = b :: w := by
          cases hr : s.rest with
          | nil => simp [hr] at hb
          | cons b' w => exact ⟨w, by simp_all⟩
        exact hc.missing b w (hends.cmp_missing htree hlen hw) hw
      obtain ⟨hturn, hle⟩ := addToArrayRequests_turn hh hends hc hroot htree hlen
        (hends.unset htree hlen) hbranch
        (f := ⟨a, s.prefixLen, u16 s.path.str.length, s.cmp, idx⟩) rfl
      exact ⟨hturn, fun _ => hle, fun hzero => absurd hzero hcmp⟩
    . obtain ⟨hrequests, hsafe⟩ := valueRequests_split hstack hrd hlen v
      rw [hrequests, hsafe]
      have hlt : s.prefixLen < k.length := by
        have hle := hends.le
        rw [htree, Tree.label] at hle
        omega
      obtain ⟨hturn, hle⟩ := splitCompressedRequests_turn hh hends hc hroot htree hlt
        (f := ⟨a, s.prefixLen, u16 s.path.str.length, s.cmp, idx⟩) rfl rfl
      exact ⟨hturn, fun _ => hle, fun hzero => absurd hzero hcmp⟩

/-- The first value: the root is written after the first request. -/
theorem valueRequests_first (hu : h.Uses o) (hroot : c.root = 0) (hstack : c.stack = [])
    (hcur : c.currentKey = []) (v : Value) :
    Turns (valueSafe h c) (Untouched h c.root o) (Broken h [] o) (valueRequests h c v) ∧
      valueSafe h c ≤ (valueRequests h c v).length := by
  have hpush : (c.push 0).restKey = c.restKey := rfl
  rw [valueSafe, valueRequests, hstack]
  simp only [hroot, ↓reduceIte]
  rw [firstExecRequests, hpush]
  refine ⟨?_, by simp⟩
  have hrefl : Untouched h 0 o (h, (c.push 0).root) := ⟨fun _ _ => rfl, hroot⟩
  refine Turns.cons (n := 0) hrefl (Turns.of_after ?_)
  split
  next hlen =>
    obtain ⟨trie, h1, s1, halloc, hhole⟩ := firstBigkey_hole (c := c.push 0) hu hcur hlen
    obtain ⟨hole, -, hpage, haddr, -⟩ := hhole ⟨0, 0, u16 c.currentKey.length, UNDEFINED, NO_LINK⟩
    rw [hpush] at halloc
    simp only [halloc, requestsAfter]
    intro x hx
    have htorn := createLeafRequests_torn hole (by rw [← haddr]; rfl) x hx
    exact Or.inl (htorn.of_page hpage)
  next => simp

end Value
end Cursor
end Leaves
