import Leaves.Core.LayoutSpec
import Leaves.Merge.Grafting

/-!
Joining the branches of a node of the source with those of a node of the destination: the branches
only the source has are copied into the new node, then the shared ones are merged one by one.
-/

namespace Leaves

namespace Branches

variable {β γ : Type} {arr more : List (Branch × β)}

theorem sorted_union (more : List (Branch × β)) (h : Sorted arr) : Sorted (union arr more) := by
  induction more generalizing arr with
  | nil => exact h
  | cons x more ih => exact ih (sorted_insert h)

theorem perm_union (h : Sorted arr) (hmore : Sorted more)
    (hset : ∀ x ∈ more, isset arr x.1 = false) : (union arr more).Perm (more ++ arr) := by
  induction more generalizing arr with
  | nil => exact .refl _
  | cons x more ih =>
    rw [List.forall_mem_cons] at hset
    have hins : (insert arr x.1 x.2).Perm (x :: arr) := by
      have hsplit := below_append_above h hset.1
      rw [insert]
      refine List.perm_middle.trans ?_
      rw [hsplit]
    have hrest : ∀ y ∈ more, isset (insert arr x.1 x.2) y.1 = false := by
      intro y hy
      have hne : y.1 ≠ x.1 := by
        intro heq
        have hlt := (List.pairwise_cons.mp hmore).1 y hy
        rw [heq] at hlt
        exact absurd hlt (lt_irrefl _)
      rw [isset_insert, hset.2 y hy, decide_eq_false hne]
      rfl
    refine (ih (sorted_insert h) hmore.of_cons hrest).trans ?_
    refine (hins.append_left more).trans ?_
    exact List.perm_middle

theorem mapSnd_union (f : β → γ) (arr more : List (Branch × β)) :
    mapSnd f (union arr more) = union (mapSnd f arr) (mapSnd f more) := by
  induction more generalizing arr with
  | nil => rfl
  | cons x more ih =>
    have hins : mapSnd f (insert arr x.1 x.2) = insert (mapSnd f arr) x.1 (f x.2) := by
      simp [insert]
    rw [union, List.foldl_cons, ← union, ih, hins]
    rfl

end Branches

namespace Tree

variable {arr more : List (Branch × Tree)}

theorem perm_branchAddrs {l l' : List (Branch × Tree)} (h : l.Perm l') :
    (branchAddrs l).Perm (branchAddrs l') := h.flatMap_right _

/-- Each key is below one of the two arrays at most. -/
theorem branchGet_union (hs : Branches.Sorted arr) (hmore : Branches.Sorted more)
    (hh : ∀ x ∈ arr, Hangs x) (hh' : ∀ x ∈ more, Hangs x)
    (hset : ∀ x ∈ more, Branches.isset arr x.1 = false) (k : Key) :
    branchGet (Branches.union arr more) k = (branchGet arr k).or (branchGet more k) := by
  have hperm := Branches.perm_union hs hmore hset
  have hsort := Branches.sorted_union more hs
  have hmem : ∀ x, x ∈ Branches.union arr more ↔ x ∈ more ∨ x ∈ arr := by
    intro x
    rw [hperm.mem_iff, List.mem_append]
  have hall : ∀ x ∈ Branches.union arr more, Hangs x := by
    intro x hx
    rcases (hmem x).mp hx with hx | hx
    . exact hh' x hx
    . exact hh x hx
  by_cases harr : Branches.isset arr k.head? = true
  . obtain ⟨t, ht⟩ := (Branches.isset_iff _ _).mp harr
    have hnone : branchGet more k = none := by
      refine branchGet_eq_none hh' fun x hx heq => ?_
      have := hset x hx
      rw [heq, harr] at this
      exact absurd this (by decide)
    rw [hnone, Option.or_none, branchGet_of_mem hs hh ht rfl,
      branchGet_of_mem hsort hall ((hmem _).mpr (Or.inr ht)) rfl]
  . rw [Bool.not_eq_true] at harr
    rw [branchGet_of_not_isset hh harr, Option.none_or]
    by_cases hm : Branches.isset more k.head? = true
    . obtain ⟨t, ht⟩ := (Branches.isset_iff _ _).mp hm
      rw [branchGet_of_mem hmore hh' ht rfl,
        branchGet_of_mem hsort hall ((hmem _).mpr (Or.inl ht)) rfl]
    . rw [Bool.not_eq_true] at hm
      rw [branchGet_of_not_isset hh' hm]
      refine branchGet_eq_none hall fun x hx heq => ?_
      rcases (hmem x).mp hx with hx | hx
      . rw [(Branches.isset_iff _ _).mpr ⟨x.2, heq ▸ hx⟩] at hm
        exact absurd hm (by decide)
      . rw [(Branches.isset_iff _ _).mpr ⟨x.2, heq ▸ hx⟩] at harr
        exact absurd harr (by decide)

/-- A key is below a branch with the property or below one without it. -/
theorem branchGet_filter (hs : Branches.Sorted arr) (hh : ∀ x ∈ arr, Hangs x)
    (p : Branch → Bool) (k : Key) :
    branchGet (arr.filter fun x => p x.1) k = if p k.head? then branchGet arr k else none := by
  have hsub : ∀ x ∈ arr.filter (fun x => p x.1), x ∈ arr ∧ p x.1 = true :=
    fun x hx => List.mem_filter.mp hx
  have hh' : ∀ x ∈ arr.filter (fun x => p x.1), Hangs x := fun x hx => hh x (hsub x hx).1
  split
  next hp =>
    by_cases hset : Branches.isset arr k.head? = true
    . obtain ⟨t, ht⟩ := (Branches.isset_iff _ _).mp hset
      rw [branchGet_of_mem hs hh ht rfl]
      exact branchGet_of_mem (x := (k.head?, t)) (hs.filter _) hh'
        (List.mem_filter.mpr ⟨ht, hp⟩) rfl
    . rw [Bool.not_eq_true] at hset
      rw [branchGet_of_not_isset hh hset]
      refine branchGet_eq_none hh' fun x hx heq => ?_
      rw [(Branches.isset_iff _ _).mpr ⟨x.2, heq ▸ (hsub x hx).1⟩] at hset
      exact absurd hset (by decide)
  next hp =>
    refine branchGet_eq_none hh' fun x hx heq => ?_
    rw [← heq] at hp
    exact hp (hsub x hx).2

end Tree

/-- Writing a node that is there already. -/
theorem Heap.setNode_self {h : Heap} {a : Addr} {node : Node} (hrd : h.rd a = node) :
    h.setNode a node = h := by
  have hpage : (h.setNode a node).page = h.page := by
    funext b
    rw [page_setNode]
    split
    next heq =>
      rw [heq, ← hrd]
      rfl
    next => rfl
  exact congrArg (fun page => ({ h with page } : Heap)) hpage

namespace Merger

open Cursor

/-- The positions in the keys fit into 16 bits. -/
def ShortTree (t : Tree) : Prop := ∀ e ∈ t.entries, e.1.length < 65536

theorem ShortTree.shallow {t : Tree} (h : ShortTree t) (hwf : t.WF) : t.Shallow := by
  refine Nat.lt_of_le_of_lt (Tree.deepest_le (n := 65535) hwf fun e he => ?_) (by decide)
  exact Nat.le_of_lt_succ (h e he)

/-- No key has become longer than those there were. -/
theorem ShortTree.plug {base : Path} {u u' : Tree} (h : ShortTree (base.plug u)) (hwf : u'.WF)
    (hkeys : ∀ k v, u'.get k = some v → u.get k ≠ none ∨ (base.str ++ k).length < 65536) :
    ShortTree (base.plug u') := by
  intro e he
  rw [Path.entries_plug, List.mem_append, List.mem_append] at he
  have hplug := Path.entries_plug base u
  rcases he with (he | he) | he
  . exact h e (by rw [hplug]; simp [he])
  . obtain ⟨k, hk, hmem⟩ := Tree.mem_behind.mp (show (e.1, e.2) ∈ _ from he)
    rw [hk]
    rcases hkeys k e.2 ((Tree.get_eq_some_iff hwf).mpr hmem) with hold | hnew
    . obtain ⟨d, hd⟩ := Option.ne_none_iff_exists'.mp hold
      have hin : (base.str ++ k, d) ∈ (base.plug u).entries := by
        rw [hplug, List.mem_append, List.mem_append]
        exact Or.inl (Or.inr (Tree.mem_behind.mpr ⟨k, rfl, Tree.mem_of_get hd⟩))
      exact h _ hin
    . exact hnew
  . exact h e (by rw [hplug]; simp [he])

variable {pol : MergePolicy}

theorem Merges.short (base : Path) {u src u' : Tree} (hm : Merges pol base.str u src u')
    (h : ShortTree (base.plug u)) (hwf : u'.WF) (hsrc : Source pol base.str src) :
    ShortTree (base.plug u') := by
  refine h.plug hwf fun k v hk => ?_
  rw [hm k] at hk
  rcases MergePolicy.merged_isSome hk with hold | hnew
  . exact Or.inl hold
  . obtain ⟨w, hw⟩ := Option.ne_none_iff_exists'.mp hnew
    exact Or.inr (hsrc.short _ (Tree.mem_of_get hw))

/--
The merge of `src` below `key` writes nothing in place: no big value is moved, and nothing is
overwritten.
-/
def Clean (pol : MergePolicy) (key : Key) (u src : Tree) : Prop :=
  ∀ k d, u.get k = some d →
    d.big = false ∧ ∀ v, src.get k = some v → pol.mayOverwrite (key ++ k) d v = false

/-- The destination has `u` below `base`, `src` is to be merged into it. -/
structure Ready (pol : MergePolicy) (h : Heap) (c : Cursor) (base : Path) (u src : Tree)
    (o : List Addr) : Prop where
  holds : h.Holds (base.plug u) o
  owned : Owned h base
  source : Source pol base.str src
  fits : base.Fits src
  short : ShortTree (base.plug u)
  root : c.root = (base.plug u).addr
  trimmed : c.Trimmed base.tail

/-- The source has been merged, and nothing has changed beside it. -/
structure Done (pol : MergePolicy) (h : Heap) (base : Path) (u src : Tree) (o : List Addr)
    (h' : Heap) (c' : Cursor) (u' : Tree) : Prop where
  holds : h'.Holds (base.plug u') o
  merges : Merges pol base.str u src u'
  root : c'.root = (base.plug u').addr
  along : c'.Along base.tail
  spares : h.Spares (Clean pol base.str u src) o h'

/-- `merge` does what it should with the child `src` of a node of the source. -/
def MergesAt (pol : MergePolicy) (merge : Merge) (src : Tree) : Prop :=
  ∀ h c base u o, Ready pol h c base u src o →
    ∃ h' c' u', merge h c base.str src = .ok (h', c') ∧ Done pol h base u src o h' c' u'

section Shared

variable {merge : Merge} {h : Heap} {c : Cursor} {p : Path} {trie : Addr} {cs : Key}
  {arr shared : List (Branch × Tree)} {dst : List (Branch × Addr)} {o : List Addr}

/-- The links of the shared branches are those the new node was created with. -/
def Links (dst : List (Branch × Addr)) (arr shared : List (Branch × Tree)) : Prop :=
  ∀ x ∈ shared, Branches.isset arr x.1 = true ∧ ∀ t, (x.1, t) ∈ arr →
    TrieNode.link ⟨[], dst⟩ ((Branches.arrayIndex dst x.1).getD 0) = t.addr

/-- Writing the link of a shared branch changes nothing. -/
theorem mergeShared_cons {size keypos : Nat} {key : Key} {y : Branch × Tree}
    (holds : h.Holds (p.plug (.node trie cs arr)) o) (hlinks : Links dst arr (y :: shared)) :
    mergeShared merge trie dst size keypos key (y :: shared) h c = (do
      let (h, c) ← merge h (c.trim size keypos) key y.2
      mergeShared merge trie dst size keypos key shared h c) := by
  obtain ⟨hset, hdst⟩ := hlinks y (by simp)
  obtain ⟨l, x, r, rfl⟩ := Branches.exists_split hset
  have hs := (Tree.wf_node.mp (Path.wf_plug.mp holds.wf).2.2).2.2.1
  have hrd := (Tree.stored_node.mp (Path.stored_plug.mp holds.stored).2).1
  have hlink : h.setLink trie l.length x.addr = h := by
    rw [Branches.mapSnd_append, Branches.mapSnd_cons] at hrd
    have hset' := setLink_eq hrd x.addr
    rw [Branches.length_mapSnd] at hset'
    rw [hset']
    exact Heap.setNode_self hrd
  rw [mergeShared]
  simp only [hrd, TrieNode.arrayIndex, Branches.arrayIndex_mapSnd,
    Branches.arrayIndex_append_cons hs, Option.getD_some, hdst x (by simp), hlink]

/-- The loop over the shared branches. -/
theorem mergeShared_merges {size keypos : Nat} (ih : ∀ x ∈ shared, MergesAt pol merge x.2)
    (hsrc : ∀ x ∈ shared, Source pol (p.str ++ cs) x.2) (hh : ∀ x ∈ shared, Tree.Hangs x)
    (hsort : Branches.Sorted shared) (hlinks : Links dst arr shared)
    (hsize : size = p.length) (hpos : keypos = p.str.length)
    (holds : h.Holds (p.plug (.node trie cs arr)) o) (howned : h.needsCow trie = false)
    (hshort : ShortTree (p.plug (.node trie cs arr)))
    (hroot : c.root = (p.plug (.node trie cs arr)).addr) (halong : c.Along p) :
    ∃ h' c' arr', mergeShared merge trie dst size keypos (p.str ++ cs) shared h c = .ok (h', c') ∧
      h'.Holds (p.plug (.node trie cs arr')) o ∧
      MergesBranches pol (p.str ++ cs) arr shared arr' ∧
      c'.root = (p.plug (.node trie cs arr')).addr ∧ c'.Along p ∧
      h.Spares (∀ x ∈ shared, ∀ t, (x.1, t) ∈ arr → Clean pol (p.str ++ cs) t x.2) o h' := by
  induction shared generalizing h c arr with
  | nil =>
    exact ⟨h, c, arr, rfl, holds, mergesBranches_nil arr, hroot, halong, .refl h o⟩
  | cons y shared ihs =>
    rw [mergeShared_cons holds hlinks]
    obtain ⟨hset, -⟩ := hlinks y (by simp)
    obtain ⟨b, y⟩ := y
    rw [List.forall_mem_cons] at ih hsrc hh
    obtain ⟨l, x, r, rfl⟩ := Branches.exists_split hset
    obtain ⟨-, -, hs, hhangs, -⟩ := Tree.wf_node.mp (Path.wf_plug.mp holds.wf).2.2
    rw [List.forall_mem_append, List.forall_mem_cons] at hhangs
    let base : Path := ⟨trie, cs, l, b, r⟩ :: p
    have htrim := halong.trim hsize
    rw [← hpos] at htrim
    have hready : Ready pol h (c.trim size keypos) base x y o := by
      refine ⟨holds, ?_, hsrc.1, hh.1, hshort, hroot, htrim⟩
      rintro s ⟨rfl⟩
      exact howned
    obtain ⟨h1, c1, x', heq, hdone⟩ := ih.1 h (c.trim size keypos) base x o hready
    have hx' := Path.wf_plug.mp hdone.holds.wf
    have hmem : ∀ z ∈ shared, z.1 ≠ b := by
      intro z hz heq
      have hlt := (List.pairwise_cons.mp hsort).1 z hz
      rw [heq] at hlt
      exact absurd hlt (lt_irrefl _)
    have hother : ∀ z ∈ shared, ∀ t,
        (z.1, t) ∈ l ++ (b, x') :: r ↔ (z.1, t) ∈ l ++ (b, x) :: r := by
      intro z hz t
      have hne := hmem z hz
      simp [hne]
    have hlinks' : Links dst (l ++ (b, x') :: r) shared := by
      intro z hz
      obtain ⟨hzset, hzdst⟩ := hlinks z (by simp [hz])
      obtain ⟨t, ht⟩ := (Branches.isset_iff _ _).mp hzset
      exact ⟨(Branches.isset_iff _ _).mpr ⟨t, (hother z hz t).mpr ht⟩,
        fun t ht => hzdst t ((hother z hz t).mp ht)⟩
    obtain ⟨h2, c2, arr', heq2, hholds2, hm2, hroot2, halong2, hspares2⟩ :=
      ihs (h := h1) (c := c1) ih.2 hsrc.2 hh.2 hsort.of_cons hlinks'
        hdone.holds (hdone.spares.owning trie howned) (hdone.merges.short _ hshort hx'.2.2 hsrc.1)
        hdone.root hdone.along
    refine ⟨h2, c2, arr', ?_, hholds2, ?_, hroot2, halong2, ?_⟩
    . have heq' : merge h (c.trim size keypos) (p.str ++ cs) y = .ok (h1, c1) := heq
      simp only [heq', bind, Except.bind]
      exact heq2
    . refine (mergesBranches_one hs hhangs.1 hhangs.2.2 hhangs.2.1 hx'.2.1 hh.1 hdone.merges).trans
        hm2 (fun k => ?_) fun k => ?_
      . rw [← Tree.branchGet_append]
        rfl
      . rw [Tree.branchGet_cons, Tree.branchGet_nil, Option.or_none]
        by_cases hk : k.head? = b
        . refine Or.inr (Tree.branchGet_eq_none hh.2 fun z hz heq => ?_)
          exact hmem z hz (heq.trans hk)
        . exact Or.inl (Tree.get_of_head_ne hh.1 hk)
    . refine (hdone.spares.mono (fun hc => ?_) fun b hb => hb).trans
        (hspares2.mono (fun hc z hz t ht => ?_) fun b hb => hb)
      . exact hc (b, y) (by simp) x (by simp)
      . exact hc z (by simp [hz]) t ((hother z hz t).mp ht)

end Shared

section Join

/-- The new node with the branches of both sides is in its place. -/
structure Joined (pol : MergePolicy) (h : Heap) (q base : Path) (cs : Key)
    (arr sarr : List (Branch × Tree)) (o : List Addr) (trie : Addr) (copies : List (Branch × Tree))
    (h' : Heap) (c' : Cursor) (q' : Path) : Prop where
  twin : q.Twin q'
  holds : h'.Holds ((q' ++ base).plug (.node trie cs (Branches.union arr copies))) o
  owned : h'.needsCow trie = false
  root : c'.root = ((q' ++ base).plug (.node trie cs (Branches.union arr copies))).addr
  along : c'.Along (q' ++ base)
  spares : h.Spares True o h'
  apart : ∀ x ∈ copies, Branches.isset arr x.1 = false
  sorted : Branches.Sorted copies
  merges : MergesBranches pol (Path.str (q ++ base) ++ cs) arr
    (sarr.filter fun x => !Branches.isset arr x.1) (Branches.union arr copies)

variable {h : Heap} {c : Cursor} {f : Transition} {q base : Path} {cs : Key}
  {arr sarr : List (Branch × Tree)} {sa : Addr} {lab : Key} {o : List Addr}

theorem join_joins (ho : Opened h c.root (q ++ base) arr o) (howned : Owned h base)
    (hsrc : Source pol base.str (.node sa lab sarr)) (hlab : lab = q.str ++ cs)
    (hsort : Branches.Sorted arr) (hh : ∀ x ∈ arr, Tree.Hangs x) (hw : ∀ x ∈ arr, x.2.WF)
    (hne : arr ≠ []) (hlen : cs.length ≤ 255) (hwf : Path.WF (q ++ base))
    (hfits : ∀ a arr, Path.Fits (q ++ base) (.node a cs arr)) (halong : c.Along (q ++ base)) :
    ∃ trie h1 h' c' q' copies,
      joinBranches pol h (base.str ++ lab) cs (Branches.mapSnd Tree.addr arr) sarr =
        .ok (trie, h1) ∧
      c.updateOffset h1 f (frames (q ++ base)) trie = .ok (h', c') ∧
      Joined pol h q base cs arr sarr o trie copies h' c' q' := by
  obtain ⟨-, -, hssort, hsh, hsw⟩ := Tree.wf_node.mp hsrc.wf
  let only := sarr.filter fun x => !Branches.isset arr x.1
  have honly : ∀ x ∈ only, x ∈ sarr := fun x hx => (List.mem_filter.mp hx).1
  obtain ⟨copies, h1, heq1, hc⟩ := copyBranches_copies pol (base.str ++ lab) only
    ho.uses (fun x hx => hsh x (honly x hx)) fun x hx h l hu =>
      copy_copies hu (hsw x (honly x hx)) (hsrc.child (honly x hx)).complete
        (hsrc.child (honly x hx)).fits
  have hcsort : Branches.Sorted copies := hc.sorted (hssort.filter _)
  have hapart : ∀ x ∈ copies, Branches.isset arr x.1 = false := by
    intro x hx
    obtain ⟨y, hy, hyx⟩ := List.mem_map.mp (hc.names.subset (List.mem_map_of_mem hx))
    have := (List.mem_filter.mp hy).2
    rw [Bool.not_eq_true'] at this
    rw [← hyx]
    exact this
  have hperm := Branches.perm_union hsort hcsort hapart
  have husort : Branches.Sorted (Branches.union arr copies) := Branches.sorted_union _ hsort
  have hcount : arr.length + copies.length = (Branches.union arr copies).length := by
    rw [hperm.length_eq, List.length_append, Nat.add_comm]
  have ho1 := ho.adds hc.adds
  obtain ⟨trie, h2, heq2, ha, hrd⟩ := Heap.allocNode_allocates ho1.uses
    (n := TrieNode.sizeMax cs.length (arr.length + copies.length))
    (fitsPage_iff.mpr ((TrieNode.sizeMax_le hlen
      (by rw [hcount]; exact Branches.length_le husort)).trans (by decide)))
    (.trie ⟨cs, Branches.mapSnd Tree.addr (Branches.union arr copies)⟩)
  have ho2 := ho1.adds ha.adds
  obtain ⟨old, hst, hroot⟩ := ho2.path
  have hmem : ∀ x ∈ Branches.union arr copies, x ∈ copies ∨ x ∈ arr := by
    intro x hx
    rwa [hperm.mem_iff, List.mem_append] at hx
  let u := Tree.node trie cs (Branches.union arr copies)
  have hst' : Tree.Stored h2.rd u := by
    refine Tree.stored_node.mpr ⟨hrd, fun x hx => ?_⟩
    rcases hmem x hx with hx | hx
    . refine ha.adds.stored (hc.stored x hx) fun b hb => ?_
      have := Tree.addrs_subset hx b hb
      simp [this]
    . exact ho2.branches x hx
  have hwf' : u.WF := by
    refine Tree.wf_node.mpr ⟨hlen, ?_, husort, ?_, ?_⟩
    . intro hnil
      have := hperm.length_eq
      rw [hnil, List.length_append] at this
      have hpos := List.length_pos_iff.mpr hne
      simp only [List.length_nil] at this
      omega
    . intro x hx
      rcases hmem x hx with hx | hx
      . exact hc.hangs x hx
      . exact hh x hx
    . intro x hx
      rcases hmem x hx with hx | hx
      . exact hc.wf x hx
      . exact hw x hx
  have hu : h2.Uses (Path.addrs (q ++ base) ++ (u.addrs ++ o)) := by
    have hbr := Tree.perm_branchAddrs hperm
    refine ho2.uses.perm (List.perm_iff_count.mpr fun x => ?_)
    have hx := hbr.count_eq x
    rw [Tree.branchAddrs_append] at hx
    simp only [u, Tree.addrs_node, List.count_append, List.count_cons, List.count_nil] at hx ⊢
    omega
  have hown2 : Owned h2 base := fun s hs => ha.owning _ (hc.adds.owning _ (howned s hs))
  obtain ⟨h3, q', heq3, ht, hholds, hsp⟩ := updateOffset_holds (f := f) hu hst hst' hwf
    (hfits trie _) hwf' hown2 hroot
  have hsp1 : h.Spares True o h1 := hc.adds.spares fun b hb => by simp [hb]
  have hsp2 : h1.Spares True o h2 := ha.adds.spares fun b hb => by simp [hb]
  refine ⟨trie, h2, h3, _, q', copies, ?_, heq3, ht, hholds, hsp.owning _ ha.owned, rfl,
    along_relinked halong ht _ _, (hsp1.trans hsp2).trans hsp, hapart, hcsort, ?_⟩
  . have hfilter :
        (sarr.filter fun x => !Branches.isset (Branches.mapSnd Tree.addr arr) x.1) = only := by
      simp only [Branches.isset_mapSnd]
      rfl
    simp only [joinBranches, hfilter, heq1, bind, Except.bind, Branches.length_mapSnd,
      ← Branches.mapSnd_union]
    exact heq2
  . intro k
    have hkey : Path.str (q ++ base) ++ cs = base.str ++ lab := by
      rw [Path.str_append, hlab, List.append_assoc]
    rw [hkey, Tree.branchGet_union hsort hcsort hh hc.hangs hapart,
      copies_branchGet hsrc (fun x hx => honly x hx) hc]
    have hdisj := Tree.branchGet_filter hssort hsh (fun b => !Branches.isset arr b) k
    cases hget : Tree.branchGet only k with
    | none => rw [Option.map_none, Option.or_none, OrdMap.merged_none]
    | some v =>
      have hset : Branches.isset arr k.head? = false := by
        rw [show Tree.branchGet only k = _ from hdisj] at hget
        split at hget
        next hset => simpa using hset
        next => simp at hget
      have hmay : pol.mayAddLeaf (base.str ++ lab ++ k) v = true := by
        rw [List.append_assoc]
        refine hsrc.mayAddLeaf (k := lab ++ k) ?_
        rw [Tree.get_node_append]
        rw [show Tree.branchGet only k = _ from hdisj] at hget
        split at hget
        next => exact hget
        next => simp at hget
      rw [Tree.branchGet_of_not_isset hh hset, Option.none_or, Option.map_some,
        MergePolicy.merged_add hmay]

/-- What the new node has below its branches decides what the trie has. -/
theorem merges_node {u w : Tree} {q' : Path} {trie : Addr} {arr' : List (Branch × Tree)}
    (hplug : q.plug w = u) (hwf : u.WF) (hwf' : (q'.plug (.node trie cs arr')).WF)
    (ht : q.Twin q') (hentries : w.entries = Tree.behind cs (Tree.branchEntries arr))
    (hlab : lab = q.str ++ cs)
    (hm : MergesBranches pol (Path.str (q ++ base) ++ cs) arr sarr arr') :
    Merges pol base.str u (.node sa lab sarr) (q'.plug (.node trie cs arr')) := by
  subst hplug hlab
  refine merges_plug_node hwf hwf' ht hentries (List.prefix_refl _) fun k => ?_
  have hkey : Path.str (q ++ base) ++ cs ++ k = base.str ++ (q.str ++ (cs ++ k)) := by
    rw [Path.str_append]
    simp only [List.append_assoc]
  rw [hm k, hkey, ← List.append_assoc q.str, Tree.get_node_append]

section Joined

variable {u w : Tree} {trie : Addr} {copies : List (Branch × Tree)} {h' : Heap} {c' : Cursor}
  {q' : Path}

/-- The branches of the source that are merged below the new node. -/
theorem sharedBranches_eq (arr : List (Branch × Tree))
    (hsrc : Source pol base.str (.node sa lab sarr)) :
    sharedBranches (Branches.mapSnd Tree.addr arr) sarr =
      sarr.filter fun x => Branches.isset arr x.1 := by
  refine List.filter_congr fun x hx => ?_
  have hne : x.2.addr ≠ 0 := (hsrc.child hx).complete _ (Tree.addr_mem_addrs _)
  simp [hne]

theorem Joined.links (j : Joined pol h q base cs arr sarr o trie copies h' c' q')
    (hsort : Branches.Sorted arr) :
    Links (Branches.mapSnd Tree.addr arr) (Branches.union arr copies)
      (sarr.filter fun x => Branches.isset arr x.1) := by
  intro x hx
  have hset := (List.mem_filter.mp hx).2
  have hperm := Branches.perm_union hsort j.sorted j.apart
  obtain ⟨l, t0, r, rfl⟩ := Branches.exists_split hset
  refine ⟨(Branches.isset_iff _ _).mpr ⟨t0, hperm.mem_iff.mpr (by simp)⟩, fun t ht => ?_⟩
  rw [hperm.mem_iff, List.mem_append] at ht
  have ht' := ht.resolve_left fun hc => by
    rw [j.apart _ hc] at hset
    exact absurd hset (by decide)
  have heq : t = t0 := Branches.eq_of_mem hsort ht' (by simp)
  rw [Branches.arrayIndex_mapSnd, Branches.arrayIndex_append_cons hsort, Option.getD_some, heq]
  exact link_append_cons

/-- The shared branches are merged below the new node, and the merge of the source is done. -/
theorem Joined.done {merge : Merge} {keypos : Nat}
    (j : Joined pol h q base cs arr sarr o trie copies h' c' q')
    (hsrc : Source pol base.str (.node sa lab sarr)) (ih : ∀ x ∈ sarr, MergesAt pol merge x.2)
    (hplug : q.plug w = u) (hwf : (base.plug u).WF) (hshort : ShortTree (base.plug u))
    (hentries : w.entries = Tree.behind cs (Tree.branchEntries arr)) (hlab : lab = q.str ++ cs)
    (hsort : Branches.Sorted arr) (hh : ∀ x ∈ arr, Tree.Hangs x)
    (hpos : keypos = (Path.str (q ++ base)).length) :
    ∃ h2 c2 arr', mergeShared merge trie (Branches.mapSnd Tree.addr arr) (frames (q ++ base)).length
        keypos (base.str ++ lab) (sharedBranches (Branches.mapSnd Tree.addr arr) sarr) h' c' =
          .ok (h2, c2) ∧
      Done pol h base u (.node sa lab sarr) o h2 c2 (q'.plug (.node trie cs arr')) := by
  obtain ⟨-, -, hssort, hsh, -⟩ := Tree.wf_node.mp hsrc.wf
  have hwfu : u.WF := (Path.wf_plug.mp hwf).2.2
  have hstr : Path.str (q' ++ base) = Path.str (q ++ base) := (j.twin.onto base).str
  have hkey : Path.str (q' ++ base) ++ cs = base.str ++ lab := by
    rw [hstr, Path.str_append, hlab, List.append_assoc]
  have hwf1 := j.holds.wf
  rw [Path.plug_append] at hwf1
  have hm1 : Merges pol base.str u
      (.node sa lab (sarr.filter fun x => !Branches.isset arr x.1)) _ :=
    merges_node hplug hwfu (Path.wf_plug.mp hwf1).2.2 j.twin hentries hlab j.merges
  have hshort1 : ShortTree ((q' ++ base).plug (.node trie cs (Branches.union arr copies))) := by
    rw [Path.plug_append]
    refine hshort.plug (Path.wf_plug.mp hwf1).2.2 fun k v hk => ?_
    rw [hm1 k] at hk
    rcases MergePolicy.merged_isSome hk with hold | hnew
    . exact Or.inl hold
    . obtain ⟨d, hd⟩ := Option.ne_none_iff_exists'.mp hnew
      by_cases hpre : lab <+: k
      . obtain ⟨z, rfl⟩ := hpre
        rw [Tree.get_node_append, Tree.branchGet_filter hssort hsh fun b => !Branches.isset arr b]
          at hd
        split at hd
        next =>
          rw [← Tree.get_node_append (a := sa) (c := lab)] at hd
          exact Or.inr (hsrc.short _ (Tree.mem_of_get hd))
        next => simp at hd
      . rw [Tree.get_of_no_label (t := .node sa lab _) hpre] at hd
        simp at hd
  rw [sharedBranches_eq arr hsrc]
  have hmem : ∀ x ∈ sarr.filter (fun x => Branches.isset arr x.1), x ∈ sarr :=
    fun x hx => (List.mem_filter.mp hx).1
  have hsize : (frames (q ++ base)).length = List.length (q' ++ base) := by
    rw [length_frames, (j.twin.onto base).length]
  obtain ⟨h2, c2, arr', heq, hholds, hm2, hroot2, halong2, hspares⟩ := mergeShared_merges
    (fun x hx => ih x (hmem x hx)) (fun x hx => hkey ▸ hsrc.child (hmem x hx))
    (fun x hx => hsh x (hmem x hx)) (hssort.filter _) (j.links hsort)
    hsize (hpos.trans (congrArg List.length hstr).symm) j.holds j.owned hshort1
    j.root j.along
  rw [hkey] at heq
  have hwf2 := hholds.wf
  rw [Path.plug_append] at hwf2
  refine ⟨h2, c2, arr', heq, by rw [← Path.plug_append]; exact hholds, ?_,
    by rw [← Path.plug_append]; exact hroot2, halong2.drop.tail,
    (j.spares.mono (fun _ => trivial) fun b hb => hb).trans
      (hspares.mono (fun hc => ?_) fun b hb => hb)⟩
  . refine merges_node hplug hwfu (Path.wf_plug.mp hwf2).2.2 j.twin hentries hlab ?_
    rw [hstr] at hm2
    refine j.merges.trans hm2 (fun k => ?_) fun k => ?_
    . rw [Tree.branchGet_filter hssort hsh fun b => !Branches.isset arr b,
        Tree.branchGet_filter hssort hsh fun b => Branches.isset arr b]
      cases Branches.isset arr k.head? <;> simp
    . rw [Tree.branchGet_filter hssort hsh fun b => !Branches.isset arr b,
        Tree.branchGet_filter hssort hsh fun b => Branches.isset arr b]
      cases Branches.isset arr k.head? <;> simp
  . intro x hx t ht k d hd
    have hset := (List.mem_filter.mp hx).2
    have hperm := Branches.perm_union hsort j.sorted j.apart
    rw [hperm.mem_iff, List.mem_append] at ht
    have ht' := ht.resolve_left fun hmemc => by
      rw [j.apart _ hmemc] at hset
      exact absurd hset (by decide)
    have hhead : k.head? = x.1 := by
      by_contra hne
      rw [Tree.get_of_head_ne (hh _ ht') hne] at hd
      simp at hd
    have hu : u.get (lab ++ k) = some d := by
      have hfits : q.Fits (.node trie cs arr') :=
        (j.twin.fits _).mp (Path.wf_plug.mp (Path.wf_plug.mp hwf2).2.2).2.1
      rw [← hplug, hlab, List.append_assoc,
        Path.get_plug (hplug ▸ hwfu) (leads_node hfits k),
        Tree.get_congr (t := .node trie cs arr) (by rw [hentries, Tree.entries_node]),
        Tree.get_node_append, Tree.branchGet_of_mem hsort hh ht' hhead]
      exact hd
    refine ⟨(hc _ _ hu).1, fun v hv => ?_⟩
    rw [hkey, List.append_assoc]
    refine (hc _ _ hu).2 v ?_
    rw [Tree.get_node_append, Tree.branchGet_of_mem hssort hsh (hmem x hx) hhead]
    exact hv

end Joined

end Join

end Merger
end Leaves
