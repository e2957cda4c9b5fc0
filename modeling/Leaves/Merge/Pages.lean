import Leaves.Db.Lemmas.Insert

/-!
The pages of a merge: pages of this transaction stay its own, new trees come on new pages, and a
link that is written below a page of this transaction changes nothing above it.
-/

namespace Leaves

namespace Heap

/-- The pages of the transaction stay its own. -/
def Owning (h h' : Heap) : Prop := ∀ a, h.needsCow a = false → h'.needsCow a = false

theorem Owning.refl (h : Heap) : h.Owning h := fun _ ha => ha

theorem Owning.trans {h h' h'' : Heap} (h1 : h.Owning h') (h2 : h'.Owning h'') : h.Owning h'' :=
  fun a ha => h2 a (h1 a ha)

theorem Allocates.owning {h h' : Heap} {l : List Addr} {a : Addr} (ha : h.Allocates l a h') :
    h.Owning h' := by
  intro b hb
  by_cases hne : b = a
  . rw [hne]
    exact ha.owned
  . rw [needsCow, ha.page b hne, ha.keeps.txnId]
    exact hb

theorem free_owning (h : Heap) (a : Addr) : h.Owning (h.free a) := fun _ hb => hb

theorem setNode_owning (h : Heap) (a : Addr) (node : Node) : h.Owning (h.setNode a node) := by
  intro b hb
  rw [needsCow, page_setNode]
  split
  next heq =>
    rw [heq] at hb
    exact hb
  next => exact hb

theorem setLink_owning (h : Heap) (a : Addr) (idx : Nat) (addr : Addr) :
    h.Owning (h.setLink a idx addr) := by
  rw [setLink]
  split
  . exact setNode_owning h a _
  . exact .refl h

/-- A link that is written in place leaves the page to its transaction. -/
theorem txnId_setLink (h : Heap) (a : Addr) (idx : Nat) (addr b : Addr) :
    ((h.setLink a idx addr).page b).txnId = (h.page b).txnId := by
  rw [setLink]
  split
  . rw [page_setNode]
    split
    next heq => rw [heq]
    next => rfl
  . rfl

/-- Besides `l` the pages `l'` are in use, new ones of this transaction. -/
structure Adds (h : Heap) (l l' : List Addr) (h' : Heap) : Prop where
  uses : h'.Uses (l' ++ l)
  keeps : h.Keeps h'
  owning : h.Owning h'
  page : ∀ b ∈ l, h'.page b = h.page b

theorem Adds.refl {h : Heap} {l : List Addr} (hu : h.Uses l) : h.Adds l [] h :=
  ⟨hu, .refl h, .refl h, fun _ _ => rfl⟩

theorem Adds.trans {h h1 h2 : Heap} {l l1 l2 : List Addr} (h1' : h.Adds l l1 h1)
    (h2' : h1.Adds (l1 ++ l) l2 h2) : h.Adds l (l2 ++ l1) h2 := by
  refine ⟨?_, h1'.keeps.trans h2'.keeps, h1'.owning.trans h2'.owning, ?_⟩
  . rw [List.append_assoc]
    exact h2'.uses
  . intro b hb
    rw [h2'.page b (List.mem_append_right _ hb), h1'.page b hb]

theorem Adds.perm {h h' : Heap} {l l1 l2 : List Addr} (ha : h.Adds l l1 h') (hp : l1.Perm l2) :
    h.Adds l l2 h' :=
  ⟨ha.uses.perm (hp.append_right l), ha.keeps, ha.owning, ha.page⟩

theorem Allocates.adds {h h' : Heap} {l : List Addr} {a : Addr} (ha : h.Allocates l a h') :
    h.Adds l [a] h' := by
  refine ⟨ha.uses, ha.keeps, ha.owning, ?_⟩
  intro b hb
  refine ha.page b ?_
  rintro rfl
  exact (List.nodup_cons.mp ha.uses.nodup).1 hb

/-- A tree on pages that stay the same. -/
theorem Adds.stored {h h' : Heap} {l l' : List Addr} (ha : h.Adds l l' h') {t : Tree}
    (ht : Tree.Stored h.rd t) (hl : ∀ b ∈ t.addrs, b ∈ l) : Tree.Stored h'.rd t :=
  ht.congr fun b hb => by rw [rd, ha.page b (hl b hb)]; rfl

end Heap

theorem copyNode_owning {h h' : Heap} {a copy : Addr} (heq : h.copyNode a = .ok (copy, h')) :
    h.Owning h' := by
  rw [Heap.copyNode, Heap.allocSlot] at heq
  split at heq
  . simp [bind, Except.bind] at heq
  . simp only [bind, Except.bind, Except.ok.injEq, Prod.mk.injEq] at heq
    obtain ⟨rfl, rfl⟩ := heq
    intro b hb
    rw [Heap.needsCow] at hb ⊢
    simp only [Heap.page_free, Heap.txnId_free, Heap.page_setPage, Heap.txnId_setPage]
    split <;> simp_all

theorem relink_owning {fs : List Transition} {h h' : Heap} {root root' a : Addr}
    {fs' : List Transition} (heq : relink h root fs a = .ok (h', root', fs')) : h.Owning h' := by
  induction fs generalizing h h' root' a fs' with
  | nil =>
    rw [relink, Except.ok.injEq, Prod.mk.injEq] at heq
    rw [← heq.1]
    exact .refl h
  | cons f fs ih =>
    rw [relink] at heq
    split at heq
    . cases hcopy : h.copyNode f.node with
      | error e => simp [hcopy, bind, Except.bind] at heq
      | ok x =>
        cases hrec : relink x.2 root fs x.1 with
        | error e => simp [hcopy, hrec, bind, Except.bind] at heq
        | ok y =>
          simp only [hcopy, hrec, bind, Except.bind, Except.ok.injEq, Prod.mk.injEq] at heq
          rw [← heq.1]
          refine (copyNode_owning hcopy).trans ((ih hrec).trans ?_)
          exact Heap.setLink_owning _ _ _ _
    . rw [Except.ok.injEq, Prod.mk.injEq] at heq
      rw [← heq.1]
      exact Heap.setLink_owning _ _ _ _

/-- The transitions from one of this transaction on stay as they are. -/
theorem relink_stays {fs gs : List Transition} {f : Transition} {h h' : Heap} {root root' a : Addr}
    {fs' : List Transition} (heq : relink h root (fs ++ f :: gs) a = .ok (h', root', fs'))
    (howned : h.needsCow f.node = false) :
    root' = root ∧ ∃ fs1, fs1.length = fs.length ∧ fs' = fs1 ++ f :: gs := by
  induction fs generalizing h h' root' a fs' with
  | nil =>
    rw [List.nil_append, relink, howned] at heq
    simp only [Bool.false_eq_true, ↓reduceIte, Except.ok.injEq, Prod.mk.injEq] at heq
    exact ⟨heq.2.1.symm, [], rfl, heq.2.2.symm⟩
  | cons g fs ih =>
    rw [List.cons_append, relink] at heq
    split at heq
    . cases hcopy : h.copyNode g.node with
      | error e => simp [hcopy, bind, Except.bind] at heq
      | ok x =>
        cases hrec : relink x.2 root (fs ++ f :: gs) x.1 with
        | error e => simp [hcopy, hrec, bind, Except.bind] at heq
        | ok y =>
          simp only [hcopy, hrec, bind, Except.bind, Except.ok.injEq, Prod.mk.injEq] at heq
          obtain ⟨h1, fs1, hlen, hfs⟩ := ih hrec (copyNode_owning hcopy _ howned)
          refine ⟨heq.2.1 ▸ h1, { g with node := x.1 } :: fs1, by simp [hlen], ?_⟩
          rw [← heq.2.2, hfs]
          rfl
    . rw [Except.ok.injEq, Prod.mk.injEq, Prod.mk.injEq] at heq
      exact ⟨heq.2.1.symm, g :: fs, rfl, heq.2.2.symm⟩

theorem Path.Twin.append {q base p' : Path} (h : Path.Twin (q ++ base) p') :
    ∃ q' base', p' = q' ++ base' ∧ q.Twin q' ∧ base.Twin base' := by
  induction q generalizing p' with
  | nil => exact ⟨[], p', rfl, .nil, h⟩
  | cons s q ih =>
    cases h with
    | cons hs h =>
      obtain ⟨q', base', rfl, h1, h2⟩ := ih h
      exact ⟨_ :: q', base', rfl, List.Forall₂.cons hs h1, h2⟩

theorem Path.Twin.onto {q q' : Path} (h : q.Twin q') (base : Path) :
    Path.Twin (q ++ base) (q' ++ base) := by
  induction h with
  | nil => exact .refl base
  | cons hs _ ih => exact List.Forall₂.cons hs ih

namespace Cursor

theorem Twin.eq_of_frames {p p' : Path} (h : p.Twin p') (heq : frames p' = frames p) : p' = p := by
  induction h with
  | nil => rfl
  | @cons s s' p p' hs h ih =>
    rw [frames_cons, frames_cons, List.cons.injEq] at heq
    have haddr : s'.addr = s.addr := congrArg Transition.node heq.1
    rw [ih heq.2, hs, haddr]

/-- What writing a link below `base` does: nothing changes from there on up. -/
structure Relinks (h : Heap) (q base : Path) (a : Addr) (o : List Addr) (h' : Heap) (q' : Path) :
    Prop where
  twin : q.Twin q'
  stored : Path.Stored h'.rd (q' ++ base) a
  uses : h'.Uses (Path.addrs (q' ++ base) ++ o)
  keeps : h.Keeps h'
  owning : h.Owning h'
  page : ∀ b ∈ o, h'.page b = h.page b

/-- The innermost node of the path belongs to the transaction. -/
def Owned (h : Heap) (base : Path) : Prop := ∀ s ∈ base.head?, h.needsCow s.addr = false

theorem relink_below {h : Heap} {q base : Path} {a old root : Addr} {o : List Addr}
    (hu : h.Uses (Path.addrs (q ++ base) ++ o)) (hst : Path.Stored h.rd (q ++ base) old)
    (howned : Owned h base) (hroot : root = Path.top (q ++ base) old) :
    ∃ h' q', relink h root (frames (q ++ base)) a =
        .ok (h', Path.top (q' ++ base) a, frames (q' ++ base)) ∧ Relinks h q base a o h' q' := by
  obtain ⟨h', root', fs', p', heq, hr⟩ :=
    relink_relinked (a := a) hu hst (carries_frames _) hroot
  obtain ⟨q', base', rfl, hq, hbase⟩ := hr.twin.append
  have hfs : fs' = frames (q' ++ base') := by rw [hr.frames, readdress_frames hr.twin]
  have hsame : base' = base := by
    cases base with
    | nil =>
      cases hbase
      rfl
    | cons s base =>
      have heq' := heq
      rw [frames_append, frames_cons] at heq'
      obtain ⟨-, fs1, hlen, hfs1⟩ := relink_stays heq' (howned s rfl)
      refine Twin.eq_of_frames hbase ?_
      rw [hfs, frames_append] at hfs1
      refine (List.append_inj hfs1 ?_).2
      rw [hlen, length_framesOn, length_framesOn, hq.length]
  subst hsame
  refine ⟨h', q', ?_, hq, hr.stored, hr.uses, hr.keeps, relink_owning heq, hr.page⟩
  rw [heq, hr.root, hfs]

end Cursor
end Leaves
