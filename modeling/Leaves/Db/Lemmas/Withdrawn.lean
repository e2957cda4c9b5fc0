import Leaves.Db.Lemmas.Interrupted

/-!
The requests of `remove`: the first link that is written leads to a trie without the key, and so
does every later one.
-/

namespace Leaves

open Cursor

/-- The root leads to the entries `es`. The pages `o` are as they were. -/
structure Reads (h : Heap) (es : List (Key × Value)) (o : List Addr) (x : Request) : Prop where
  page : ∀ b ∈ o, x.1.page b = h.page b
  reads : ReadsAs x.1.rd x.2 es

theorem Reads.differs {h : Heap} {es es' : List (Key × Value)} {o : List Addr} {x : Request}
    (hx : Reads h es o x) (hne : es ≠ es') : Differs h es' o x := by
  obtain ⟨m, hm, rfl⟩ := hx.reads
  refine ⟨hx.page, ?_⟩
  rw [hm.readsAs_iff]
  exact hne

theorem Reads.of_page {h h' : Heap} {es : List (Key × Value)} {o : List Addr} {x : Request}
    (hx : Reads h' es o x) (hpage : ∀ b ∈ o, h'.page b = h.page b) : Reads h es o x :=
  ⟨fun b hb => (hx.page b hb).trans (hpage b hb), hx.reads⟩

theorem Heap.Stores.read {h : Heap} {m : Trie} {o : List Addr} (hs : h.Stores m o) :
    m.Read h.rd m.root :=
  ⟨hs.valid, rfl, fun a ha => hs.uses.ne_zero a (List.mem_append_left _ ha)⟩

namespace Cursor

theorem Replaces.reads {h h' : Heap} {p p' : Path} {u : Tree} {o o' : List Addr} {root : Addr}
    (hr : Replaces h p u o' h' root p') (hsub : ∀ b ∈ o, b ∈ o') :
    Reads h (p'.plug u).entries o (h', root) := by
  refine ⟨fun b hb => hr.page b (hsub b hb), some (p'.plug u), ?_, rfl⟩
  rw [hr.root]
  exact hr.holds.stores.read

theorem Removes.reads {h h' : Heap} {es : List (Key × Value)} {o : List Addr} {pos : Prop}
    {c' : Cursor} {m' : Trie} (hr : Removes h es o pos h' c' m') : Reads h es o (h', c'.root) := by
  refine ⟨hr.page, m', ?_, hr.entries⟩
  rw [hr.root]
  exact hr.stores.read

section Reduce

variable {h : Heap} {c : Cursor} {s : Step} {p : Path} {x : Addr} {o l : List Addr} {pos : Prop}

/-- The requests from the one for the new node to the last copy above it. -/
theorem Backs.relinkRequests (hb : Backs h c s p x o pos) {b : Addr} {h1 : Heap} {l' : List Addr}
    (ha : h.Allocates (p.addrs ++ l') b h1) (hl : ∀ a ∈ l, ¬h.Free a) :
    (∀ x ∈ relinkRequests h1 c.root (frames p), Untouched h c.root l x) ∧
      (Leaves.relinkRequests h1 c.root (frames p)).length = relinkSafe h (frames p) := by
  have hu1 : h1.Uses (p.addrs ++ (b :: l')) := ha.uses.perm List.perm_middle.symm
  obtain ⟨hx, hlen⟩ := relinkRequests_untouched (r := c.root) hu1 (carries_frames p)
    (fun a hal hfree => hl a hal (ha.keeps.free a hfree))
  have hpath : ∀ a ∈ p.addrs, h1.page a = h.page a := by
    intro a hap
    exact ha.page_of_not_free (hb.uses.not_free a (by simp [hap]))
  have hsafe : relinkSafe h1 (frames p) = relinkSafe h (frames p) := by
    refine relinkSafe_congr fun g hg => ?_
    rw [Heap.needsCow, Heap.needsCow, hpath _ (Carries.node_mem (carries_frames p) g hg),
      ha.keeps.txnId]
  refine ⟨fun y hy => ?_, hlen.trans hsafe⟩
  exact (hx y hy).of_page (fun _ ha => ha) (fun a hal => ha.page_of_not_free (hl a hal))

theorem reduceArrayRequests_turn (hb : Backs h c s p x o pos) {prefixLen : Nat}
    (hpre : prefixLen = 0 ↔ s.branch = none) (hne : s.left ++ s.right ≠ [])
    (hl : ∀ a ∈ l, ¬h.Free a) :
    let requests := reduceArrayRequests h c (taken s p) (frames p) ⟨s.compressed,
      Branches.mapSnd Tree.addr s.left ++ (s.branch, x) :: Branches.mapSnd Tree.addr s.right⟩
      prefixLen
    Turns (1 + relinkSafe h (frames p)) (Untouched h c.root l)
        (Reads h (Path.before (s :: p) ++ Path.after (s :: p)) o) requests ∧
      1 + relinkSafe h (frames p) ≤ requests.length := by
  obtain ⟨branch, hbranch⟩ : ∃ branch, branch =
      if prefixLen = 0 then none else some (c.branchKey (frames p).length) := ⟨_, rfl⟩
  obtain ⟨b, h1, h2, root', p', halloc, hupdate, ha, hr, hentries⟩ :=
    reduceArray_replaces hb hpre hne hbranch
  obtain ⟨hx, hlen⟩ := hb.relinkRequests ha hl
  have hreads := hr.reads (o := o) (fun a hao => List.mem_cons_of_mem _ hao)
  rw [hentries] at hreads
  simp only [reduceArrayRequests, ← hbranch, halloc, hupdate, requestsAfter]
  refine ⟨?_, ?_⟩
  . rw [Nat.add_comm, ← hlen]
    exact Turns.cons (.refl h c.root l)
      (Turns.append hx (Turns.of_after (List.forall_mem_singleton.mpr hreads)))
  . rw [List.length_cons, List.length_append]
    omega

theorem takePlaceRequests_turn (hb : Backs h c s p x o pos) {y : Branch × Tree}
    (hone : s.left ++ s.right = [y]) {len : Nat}
    (hlen : s.compressed.length + y.2.label.length = len) (hle : len ≤ 255)
    (hfits : fitsPage (y.2.sizeWith len) = true) (hl : ∀ a ∈ l, ¬h.Free a) :
    ∃ b h1, h.allocNode (y.2.sizeWith len) (y.2.extend 0 s.compressed).root = .ok (b, h1) ∧
      Turns (relinkSafe h (frames p)) (Untouched h c.root l)
        (Reads h (Path.before (s :: p) ++ Path.after (s :: p)) o)
        (takePlaceRequests h1 c (taken s p) (frames p) b y.2.addr) ∧
      relinkSafe h (frames p) ≤
        (takePlaceRequests h1 c (taken s p) (frames p) b y.2.addr).length := by
  obtain ⟨b, h1, h2, root', p', halloc, hupdate, ha, hr, hentries⟩ :=
    takePlace_replaces hb hone hlen hle hfits
  obtain ⟨hx, hlen⟩ := hb.relinkRequests ha hl
  have hreads := hr.reads (o := o) (fun a hao => by simp [hao])
  rw [hentries] at hreads
  refine ⟨b, h1, halloc, ?_⟩
  simp only [takePlaceRequests, hupdate, requestsAfter]
  refine ⟨?_, ?_⟩
  . rw [← hlen]
    refine Turns.append hx (Turns.of_after ?_)
    rw [List.forall_mem_cons, List.forall_mem_singleton]
    exact ⟨hreads, hreads.page, hreads.reads⟩
  . rw [List.length_append]
    omega

theorem combineRequests_eq {g : Transition} {gs : List Transition} {t : TrieNode} {prefixLen : Nat}
    {u : Tree} (hlink : t.link (if g.linkIdx ≠ 0 then 0 else 1) = u.addr) (hrd : h.rd u.addr = u.root)
    {n : Nat} (hlen : t.len + u.label.length = n) :
    combineRequests h c g gs t prefixLen =
      if 255 < n then reduceArrayRequests h c g gs t prefixLen
      else (h, c.root) :: requestsAfter (h.allocNode (u.sizeWith n) (u.extend 0 t.compressed).root)
        fun x => takePlaceRequests x.2 c g gs x.1 u.addr := by
  subst hlen
  rw [combineRequests, hlink, hrd]
  cases u with
  | leaf a k v => rfl
  | node a k arr => rfl

theorem combineRequests_turn (hb : Backs h c s p x o pos) {prefixLen : Nat}
    (hpre : prefixLen = 0 ↔ s.branch = none) {y : Branch × Tree} (hone : s.left ++ s.right = [y])
    (hl : ∀ a ∈ l, ¬h.Free a) :
    let requests := combineRequests h c (taken s p) (frames p) ⟨s.compressed,
      Branches.mapSnd Tree.addr s.left ++ (s.branch, x) :: Branches.mapSnd Tree.addr s.right⟩
      prefixLen
    Turns (1 + relinkSafe h (frames p)) (Untouched h c.root l)
        (Reads h (Path.before (s :: p) ++ Path.after (s :: p)) o) requests ∧
      ((255 < s.compressed.length + y.2.label.length ||
          fitsPage (y.2.sizeWith (s.compressed.length + y.2.label.length))) = true →
        1 + relinkSafe h (frames p) ≤ requests.length) := by
  obtain ⟨hlink, hystored⟩ := link_remaining hb.stored hone
  rw [combineRequests_eq hlink hystored.root (n := s.compressed.length + y.2.label.length) rfl]
  by_cases hlen : 255 < s.compressed.length + y.2.label.length
  . rw [if_pos hlen]
    obtain ⟨hturn, hle⟩ := reduceArrayRequests_turn hb hpre (by simp [hone]) hl
    exact ⟨hturn, fun _ => hle⟩
  . rw [if_neg hlen]
    simp only [hlen, decide_false, Bool.false_or]
    by_cases hfits : fitsPage (y.2.sizeWith (s.compressed.length + y.2.label.length)) = true
    . obtain ⟨b, h1, halloc, hturn, hle⟩ :=
        takePlaceRequests_turn hb hone rfl (Nat.le_of_not_lt hlen) hfits hl
      simp only [halloc, requestsAfter]
      refine ⟨?_, fun _ => ?_⟩
      . rw [Nat.add_comm]
        exact Turns.cons (.refl h c.root l) hturn
      . rw [List.length_cons]
        omega
    . rw [Bool.not_eq_true] at hfits
      simp only [Heap.allocNode_of_not_fits h hfits, requestsAfter]
      refine ⟨?_, fun h' => absurd (hfits.symm.trans h') (by decide)⟩
      rw [Nat.add_comm]
      exact Turns.cons (.refl h c.root l) Turns.nil

/-- The requests at a node of the path, as `removeNode` finds it. -/
theorem removeNodeRequests_cons (hb : Backs h c s p x o pos) (f : Transition) {c0 : Cursor}
    (hpop : c0.pop = c) :
    removeNodeRequests (f :: frames (s :: p)) h c0 =
        (match s.left ++ s.right with
        | [] => removeNodeRequests (frames (s :: p)) h c ++
            requestsAfter (removeNode (frames (s :: p)) h c) fun (h, c) => [(h, c.root)]
        | [_] => combineRequests h c (taken s p) (frames p) ⟨s.compressed, Branches.mapSnd Tree.addr
              s.left ++ (s.branch, x) :: Branches.mapSnd Tree.addr s.right⟩ f.prefixLen ++
            requestsAfter (combine h c (taken s p) (frames p) ⟨s.compressed, Branches.mapSnd Tree.addr
              s.left ++ (s.branch, x) :: Branches.mapSnd Tree.addr s.right⟩ f.prefixLen)
              fun (h, c) => [(h, c.root)]
        | _ => reduceArrayRequests h c (taken s p) (frames p) ⟨s.compressed, Branches.mapSnd Tree.addr
              s.left ++ (s.branch, x) :: Branches.mapSnd Tree.addr s.right⟩ f.prefixLen ++
            requestsAfter (reduceArray h c (taken s p) (frames p) ⟨s.compressed, Branches.mapSnd
              Tree.addr s.left ++ (s.branch, x) :: Branches.mapSnd Tree.addr s.right⟩ f.prefixLen)
              fun (h, c) => [(h, c.root)]) ∧
      removeSafe h (f :: frames (s :: p)) =
        if s.left ++ s.right = [] then removeSafe h (frames (s :: p))
        else 1 + relinkSafe h (frames p) := by
  have hcount : TrieNode.count ⟨s.compressed,
      Branches.mapSnd Tree.addr s.left ++ (s.branch, x) :: Branches.mapSnd Tree.addr s.right⟩ =
      (s.left ++ s.right).length + 1 := by
    simp only [TrieNode.count, List.length_append, List.length_cons, Branches.length_mapSnd]
    omega
  have hrd : h.rd (taken s p).node = _ := hb.rd
  rw [frames_cons, removeNodeRequests, removeSafe]
  simp only [hpop, hrd, hcount]
  rcases s.left ++ s.right with _ | ⟨y, _ | ⟨z, l⟩⟩
  . exact ⟨rfl, rfl⟩
  . exact ⟨rfl, rfl⟩
  . exact ⟨rfl, rfl⟩

end Reduce

/-- The last request of `removeNode` is in front of the free of the removed node. -/
theorem requestsAfter_removes {h : Heap} {es : List (Key × Value)} {o : List Addr} {pos : Prop}
    {r : Except Fault (Heap × Cursor)} {fits : Bool} (hr : Outcome r fits (Removes h es o pos)) :
    (∀ x ∈ requestsAfter r fun (h, c) => [(h, c.root)], Reads h es o x) ∧
      ((requestsAfter r fun (h, c) => [(h, c.root)]) ≠ [] → fits = true) := by
  rw [Outcome] at hr
  split at hr
  next hfits =>
    obtain ⟨h', c', m', rfl, hr⟩ := hr
    exact ⟨List.forall_mem_singleton.mpr hr.reads, fun _ => hfits⟩
  next hfits =>
    rw [hr]
    exact ⟨by simp [requestsAfter], by simp [requestsAfter]⟩

/-- The induction follows the path up: as long as a node has no branch left but the one to the
removed child, it is removed as well, and the request in front of its free comes after those of the
nodes above it. -/
theorem removeNodeRequests_turn {p : Path} {h : Heap} {c : Cursor} {f : Transition} {x : Addr}
    {w : Key} {o l : List Addr} (hu : h.Uses (p.addrs ++ (x :: o))) (hst : p.Stored h.rd x)
    (hwf : p.WF) (hnode : f.node = x) (hleads : p.Leads w) (hpre : f.prefixLen = w.length)
    (hstack : c.stack = f :: frames p) (hknown : Known c.branchKey p) (hroot : c.root = p.top x)
    (hrest : c.restKey = []) (hl : ∀ a ∈ l, ¬h.Free a) :
    Turns (removeSafe h (f :: frames p)) (Untouched h c.root l)
        (Reads h (p.before ++ p.after) o) (removeNodeRequests (f :: frames p) h c) ∧
      (p.combineFits = true →
        removeSafe h (f :: frames p) ≤ (removeNodeRequests (f :: frames p) h c).length) := by
  induction p generalizing h c f x w o with
  | nil =>
    have hreads : Reads h [] o (h, c.leaveRoot.root) :=
      ⟨fun _ _ => rfl, none, ⟨⟨by simp, by simp, by simp⟩, rfl, by simp [Trie.addrs]⟩, rfl⟩
    exact ⟨Turns.of_after (List.forall_mem_singleton.mpr hreads), fun _ => Nat.zero_le _⟩
  | cons s p ih =>
    have hpop : c.pop = { c.resizeKey f.keypos with stack := frames (s :: p) } := by
      rw [pop, hstack]
    have hb : Backs h c.pop s p x (x :: o) False := by
      refine ⟨hu, hst, hwf, by rw [hpop], by rw [hpop]; exact hknown, by rw [hpop]; exact hroot,
        by rw [hpop]; exact hrest, False.elim⟩
    have hpre0 : f.prefixLen = 0 ↔ s.branch = none := by
      rw [Path.leads_cons] at hleads
      rw [hpre, List.length_eq_zero_iff, ← hleads, List.head?_eq_none_iff]
    have hpoproot : c.pop.root = c.root := root_pop c
    obtain ⟨hrequests, hsafe⟩ := removeNodeRequests_cons hb f rfl
    rw [hrequests, hsafe, Path.combineFits]
    rcases hrest' : s.left ++ s.right with _ | ⟨y, _ | ⟨z, r⟩⟩
    . obtain ⟨hleft, hright⟩ := List.append_eq_nil_iff.mp hrest'
      have hes : Path.before (s :: p) ++ Path.after (s :: p) = Path.before p ++ Path.after p := by
        simp [Path.before, Path.after, hleft, hright]
      have huses : h.Uses (Path.addrs p ++ (s.addr :: (x :: o))) := by
        refine hu.perm (List.perm_iff_count.mpr fun z => ?_)
        simp only [Path.addrs_cons, hleft, hright, Tree.branchAddrs_nil, List.count_append,
          List.count_cons, List.count_nil]
        omega
      have hleads' : Path.Leads p s.compressed := by
        have := Path.leads_step hwf []
        rwa [List.append_nil] at this
      obtain ⟨hturn, hle⟩ := ih (f := taken s p) (x := s.addr) (w := s.compressed) huses
        hst.2.2.2 hwf.2.2.2.2.2 rfl hleads' rfl hb.stack hb.known.tail hb.root hb.restKey hl
      have hproceeds := removeNode_proceeds (f := taken s p) huses hst.2.2.2 hwf.2.2.2.2.2 rfl
        hleads' rfl hb.stack hb.known.tail hb.root hb.restKey (show False → _ from False.elim)
      obtain ⟨hlast, hfits⟩ := requestsAfter_removes (hproceeds.mono fun _ _ _ hr => hr.toRemoves)
      have hsub : ∀ x' : Request, Reads h (Path.before p ++ Path.after p) (x :: o) x' →
          Reads h (Path.before p ++ Path.after p) o x' :=
        fun x' hx' => ⟨fun b hb => hx'.page b (List.mem_cons_of_mem _ hb), hx'.reads⟩
      rw [hes, if_pos rfl, ← hpoproot]
      refine ⟨(hturn.mono (fun _ hx => hx) hsub).append_after (fun hne => hle (hfits hne))
        (fun x' hx' => hsub x' (hlast x' hx')), fun hcombine => ?_⟩
      rw [List.length_append]
      have := hle hcombine
      rw [frames_cons]
      omega
    . have hsub : ∀ x' : Request, Reads h (Path.before (s :: p) ++ Path.after (s :: p)) (x :: o) x' →
          Reads h (Path.before (s :: p) ++ Path.after (s :: p)) o x' :=
        fun x' hx' => ⟨fun b hb => hx'.page b (List.mem_cons_of_mem _ hb), hx'.reads⟩
      obtain ⟨hturn, hle⟩ := combineRequests_turn hb hpre0 hrest' hl
      obtain ⟨hlast, hfits⟩ := requestsAfter_removes
        ((combine_proceeds hb hpre0 hrest').mono fun _ _ _ hr => hr.toRemoves)
      rw [if_neg (by simp), ← hpoproot]
      refine ⟨(hturn.mono (fun _ hx => hx) hsub).append_after (fun hne => hle (hfits hne))
        (fun x' hx' => hsub x' (hlast x' hx')), fun hcombine => ?_⟩
      rw [List.length_append]
      have := hle hcombine
      omega
    . have hsub : ∀ x' : Request, Reads h (Path.before (s :: p) ++ Path.after (s :: p)) (x :: o) x' →
          Reads h (Path.before (s :: p) ++ Path.after (s :: p)) o x' :=
        fun x' hx' => ⟨fun b hb => hx'.page b (List.mem_cons_of_mem _ hb), hx'.reads⟩
      obtain ⟨hturn, hle⟩ := reduceArrayRequests_turn hb hpre0 (by simp [hrest']) hl
      have hremoves : Outcome (reduceArray h c.pop (taken s p) (frames p) ⟨s.compressed,
          Branches.mapSnd Tree.addr s.left ++ (s.branch, x) :: Branches.mapSnd Tree.addr s.right⟩
          f.prefixLen) true
          (Removes h (Path.before (s :: p) ++ Path.after (s :: p)) (x :: o) False) := by
        rw [Outcome, if_pos rfl]
        obtain ⟨h', c', m', heq, hr⟩ := reduceArray_proceeds hb hpre0 (by simp [hrest'])
          fun _ => by simp [hrest']
        exact ⟨h', c', m', heq, hr.toRemoves⟩
      obtain ⟨hlast, -⟩ := requestsAfter_removes hremoves
      rw [if_neg (by simp), ← hpoproot]
      refine ⟨(hturn.mono (fun _ hx => hx) hsub).append_after (fun _ => hle)
        (fun x' hx' => hsub x' (hlast x' hx')), fun _ => ?_⟩
      rw [List.length_append]
      omega

section Remove

variable {h : Heap} {c : Cursor} {s : Stop} {t : Tree} {K : Key} {o : List Addr}

/-- Before a link is written the trie is as it was, from then on it has lost the key. -/
theorem removeRequests_turn (hh : h.Holds t o) (hends : s.Ends t K) (hc : c.Stopped s)
    (hroot : c.root = t.addr) {a : Addr} {v : Value} (htree : s.tree = .leaf a s.suffix v) :
    Turns (removeSafe h c.stack) (Untouched h c.root (t.addrs ++ o)) (Differs h t.entries o)
      (removeRequests h c) := by
  obtain ⟨hcmp, hrest⟩ := hends.hit htree rfl
  obtain ⟨idx, hstack⟩ := hc.stack
  have hplug := hends.plug
  rw [htree] at hplug hstack
  subst hplug
  obtain ⟨hst, hleaf⟩ := Path.stored_plug.mp hh.stored
  obtain ⟨hpwf, -, -⟩ := Path.wf_plug.mp hh.wf
  have hvalid : c.isValid h.rd = true := by
    have hrd : h.rd a = _ := Tree.stored_leaf.mp hleaf
    rw [isValid, hstack]
    simp only [Tree.addr, hrd, hcmp, beq_self_eq_true]
  have hne : s.path.before ++ s.path.after ≠ (s.path.plug (.leaf a s.suffix v)).entries := by
    intro heq
    have hlen := congrArg List.length heq
    rw [Path.entries_plug] at hlen
    simp [Tree.behind] at hlen
  rw [removeRequests, if_pos hvalid, hstack]
  obtain ⟨hturn, -⟩ := removeNodeRequests_turn (x := a) (w := s.suffix)
    (l := (s.path.plug (.leaf a s.suffix v)).addrs ++ o) hh.uses_plug hst hpwf rfl hends.leads
    (hends.prefixLen_leaf htree) hstack hc.known (hroot.trans (Path.addr_plug _ _))
    (by rw [hc.restKey, hrest]) hh.uses.not_free
  exact hturn.mono (fun _ hx => hx) (fun _ hx => hx.differs hne)

end Remove

end Cursor
end Leaves
