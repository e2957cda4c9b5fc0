import Leaves.Db.Lemmas.Works
import Leaves.Db.Refinement
import Leaves.Trie.Reading

/-!
What a change of the map leaves of the versions before it: the pages of earlier transactions stay as
they are, unless a big leaf of one of them loses its flag.
-/

namespace Leaves

open OrdMap (Related)

/-- `copyReducedLeaf` is going to clear the flag of a leaf of an earlier transaction. -/
def Cursor.clearsFlag (h : Heap) (c : Cursor) : Bool :=
  match c.stack with
  | [] => false
  | f :: _ =>
    match h.rd f.node with
    | .leaf l => f.cmp != 0 && l.big && h.needsCow f.node
    | .trie _ => false

namespace Edit

/-- The change clears no flag of an earlier transaction. -/
def keepsFlag (h : Heap) (root : Addr) : Edit → Bool
  | .value key _ =>
    match (Cursor.init root).find h.rd key with
    | none => true
    | some c => !c.clearsFlag h
  | .remove _ => true
  | .nextTransaction _ => true

/-- The pages after a change of the map: what is new is under the root, the pages `o` are as before.
-/
structure Edited (h : Heap) (o : List Addr) (clean : Prop) (h' : Heap) (t' : Trie) : Prop where
  stores : h'.Stores t' o
  page : ∀ b ∈ o, h'.page b = h.page b
  keeps : clean → h.Keeps h'

end Edit

namespace Cursor

section Found

variable {h : Heap} {c : Cursor} {s : Stop} {t : Tree} {K : Key} {o : List Addr}

theorem keepsFlag_of_clears (hc : c.Stopped s) (hst : Tree.Stored h.rd s.tree)
    (hclears : c.clearsFlag h = false) : KeepsFlag h s := by
  obtain ⟨idx, hstack⟩ := hc.stack
  have hroot := hst.root
  rw [clearsFlag, hstack] at hclears
  simp only [hroot] at hclears
  unfold KeepsFlag
  split
  next a k v htree =>
    intro hcmp hbig
    rw [htree, Tree.root] at hclears
    simpa [hcmp, hbig, Tree.addr] using hclears
  next => trivial

theorem put_edited {m : Trie} (hs : h.Stores m o) {key : Key} (hlen : key.length ≤ MAX_KEY_SIZE)
    (v : Content) :
    ∃ c n, (init m.root).find h.rd key = some c ∧
      Outcome (c.put h v) (c.putFits h.rd v) fun h' c' t' =>
        Edit.Edited h o (c.clearsFlag h = false) h' (some t') ∧ c'.root = t'.addr ∧
          t'.entries = OrdMap.insert m.entries key (storedValue n v) := by
  obtain ⟨c, hfind, hroot, hnone, hsome⟩ := find_init hs hlen
  cases m with
  | none =>
    obtain ⟨hstack, hcur, hrest⟩ := hnone rfl
    refine ⟨c, key.length, hfind, ?_⟩
    have hfits : c.putFits h.rd v = fitsPage (LeafNode.sizeOf (lastPart c.restKey).length
        (storedValue c.restKey.length v).bytes.length) := by
      rw [putFits, leaf?, hstack]
    rw [hfits, put]
    refine (value_first (v := storedValue c.restKey.length v) (o := o) hs.uses hroot
      hstack hcur).mono fun h' c' t' hw => ?_
    refine ⟨⟨hw.holds.stores, hw.page, fun _ => hw.keeps trivial⟩, hw.root, ?_⟩
    rw [hw.entries, hrest]
    rfl
  | some t =>
    have hc := hsome t rfl
    have hends := Tree.search_root_ends (hs.valid.wf t rfl) key
    have hst := (Path.stored_plug.mp (hends.plug ▸ hs.valid.stored t rfl)).2
    refine ⟨c, (t.search [] key).rest.length, hfind, ?_⟩
    rw [putFits_eq hends hc (hs.valid.stored t rfl), put, hc.restKey]
    refine (value_outcome hs.holds hends hc hroot).mono fun h' c' t' hw => ?_
    refine ⟨⟨hw.holds.stores, hw.page, fun hclears => ?_⟩, hw.root, hw.entries⟩
    exact hw.keeps (keepsFlag_of_clears hc hst hclears)

theorem remove_edited {m : Trie} (hs : h.Stores m o) {key : Key}
    (hlen : key.length ≤ MAX_KEY_SIZE) (hkey : (OrdMap.lookup m.entries key).isSome) :
    ∃ c, (init m.root).find h.rd key = some c ∧ c.isValid h.rd = true ∧
      Outcome (c.remove h) (removeFits h.rd c.stack) fun h' c' m' =>
        Edit.Edited h o True h' m' ∧ c'.root = m'.root ∧
          m'.entries = OrdMap.erase m.entries key := by
  obtain ⟨c, hfind, hvalid, -⟩ := remove_init hs hlen
  rw [hkey] at hvalid
  obtain ⟨c1, hfind1, hroot, hnone, hsome⟩ := find_init hs hlen
  rw [hfind, Option.some.injEq] at hfind1
  rw [← hfind1] at hroot hnone hsome
  refine ⟨c, hfind, hvalid, ?_⟩
  cases m with
  | none => simp [Trie.entries] at hkey
  | some t =>
    have hc := hsome t rfl
    have hwf := hs.valid.wf t rfl
    have hst := hs.valid.stored t rfl
    have hends := Tree.search_root_ends hwf key
    rw [isValid_eq, hc.entry hends hst hwf, OrdMap.entryAt, Option.bind_some,
      Option.isSome_map] at hvalid
    rcases hends.hit_or_miss hwf with ⟨a, v, htree, -, -, -⟩ | ⟨-, hmiss⟩
    . obtain ⟨idx, hstack⟩ := hc.stack
      have hplug := hends.plug
      rw [hstack, removeFits_eq (Path.stored_plug.mp (hplug ▸ hst)).1
        (Path.wf_plug.mp (hplug ▸ hwf)).1]
      obtain ⟨hes, hout⟩ := remove_proceeds hs.holds hends hc hroot htree
      exact hout.mono fun h' c' m' hr =>
        ⟨⟨hr.stores, hr.page, fun _ => hr.keeps⟩, hr.root, hr.entries.trans hes.symm⟩
    . rw [hmiss] at hvalid
      exact absurd hvalid (by decide)

end Found

end Cursor

namespace Edit

section Exec

variable {h : Heap} {t : Trie} {m : List (Key × Content)} {o : List Addr} {e : Edit}

/-- A change of the map is made, or it is refused and would change nothing. -/
theorem exec_edited (hs : h.Stores t o)
    (hrel : Related (fun v w => ∃ n, v = storedValue n w) t.entries m)
    (hedit : ∀ n, e ≠ .nextTransaction n) (hfits : fits h t.root e = true) :
    (∃ h' t', exec h t.root e = .ok (h', t'.root) ∧
      Edited h o (keepsFlag h t.root e = true) h' t' ∧
      Related (fun v w => ∃ n, v = storedValue n w) t'.entries (e.apply m)) ∨
    ∃ fault, exec h t.root e = .error fault ∧ fault ≠ .pageOverflow ∧ e.apply m = m := by
  cases e with
  | nextTransaction n => exact absurd rfl (hedit n)
  | value key v =>
    by_cases hlen : key.length ≤ MAX_KEY_SIZE
    . obtain ⟨c, n, hfind, hout⟩ := Cursor.put_edited hs hlen v
      rw [fits, hfind] at hfits
      rw [Cursor.Outcome, if_pos hfits] at hout
      obtain ⟨h', c', t', heq, hed, hroot, hentries⟩ := hout
      left
      refine ⟨h', some t', ?_, ⟨hed.stores, hed.page, fun hkeeps => hed.keeps ?_⟩, ?_⟩
      . rw [exec, hfind]
        dsimp only
        rw [heq, Except.map, hroot]
        rfl
      . rw [keepsFlag, hfind] at hkeeps
        simpa using hkeeps
      . rw [apply, if_pos hlen, Trie.entries, hentries]
        exact hrel.insert key ⟨n, rfl⟩
    . right
      refine ⟨.keyTooBig, ?_, by decide, by rw [apply, if_neg hlen]⟩
      rw [exec, find_of_gt hlen]
  | remove key =>
    by_cases hlen : key.length ≤ MAX_KEY_SIZE
    . rw [apply, if_pos hlen]
      cases hkey : OrdMap.lookup m key with
      | none =>
        obtain ⟨hexec, herase⟩ := exec_remove_missing ⟨t, hs, rfl, hrel⟩ hlen hkey
        exact Or.inr ⟨.noValidPosition, hexec, by decide, herase⟩
      | some v =>
        have hsome : (OrdMap.lookup t.entries key).isSome := by
          rw [hrel.lookup_isSome, hkey]
          rfl
        obtain ⟨c, hfind, hvalid, hout⟩ := Cursor.remove_edited hs hlen hsome
        rw [fits, hfind] at hfits
        simp only [hvalid, Bool.not_true, Bool.false_or] at hfits
        rw [Cursor.Outcome, if_pos hfits] at hout
        obtain ⟨h', c', t', heq, hed, hroot, hentries⟩ := hout
        left
        refine ⟨h', t', ?_, ⟨hed.stores, hed.page, fun _ => hed.keeps trivial⟩, ?_⟩
        . rw [exec, hfind]
          dsimp only
          rw [heq, Except.map, hroot]
        . rw [hentries]
          exact hrel.erase key
    . right
      refine ⟨.keyTooBig, ?_, by decide, by rw [apply, if_neg hlen]⟩
      rw [exec, find_of_gt hlen]

/-- A page that is neither of the trie nor to be had stays so. -/
theorem exec_frame (hs : h.Stores t o)
    (hrel : Related (fun v w => ∃ n, v = storedValue n w) t.entries m)
    (hedit : ∀ n, e ≠ .nextTransaction n) (hfits : fits h t.root e = true)
    {h' : Heap} {t' : Trie} (heq : exec h t.root e = .ok (h', t'.root)) (hs' : h'.Stores t' o)
    {a : Addr} (hne : a ≠ 0) (hslot : (h.page a).slotId < PAGE_SIZES_COUNT)
    (hmem : a ∉ t.addrs ++ o) (havail : ¬h.Avail a) : a ∉ t'.addrs ∧ ¬h'.Avail a := by
  have hs1 : h.Stores t (a :: o) := by
    refine ⟨?_, hs.valid⟩
    have hu : h.Uses (a :: (t.addrs ++ o)) := by
      refine ⟨hs.uses.sound, hs.uses.recycle, List.nodup_cons.mpr ⟨hmem, hs.uses.nodup⟩, ?_, ?_, ?_⟩
      . rw [List.forall_mem_cons]
        exact ⟨hne, hs.uses.ne_zero⟩
      . rw [List.forall_mem_cons]
        exact ⟨havail, hs.uses.not_avail⟩
      . rw [List.forall_mem_cons]
        exact ⟨hslot, hs.uses.slot⟩
    exact hu.perm List.perm_middle.symm
  rcases exec_edited hs1 hrel hedit hfits with ⟨h1, t1, heq1, hed, -⟩ | ⟨fault, heq1, -⟩
  . rw [heq, Except.ok.injEq, Prod.mk.injEq] at heq1
    obtain ⟨rfl, hroot⟩ := heq1
    have hread : t1.Read h'.rd t'.root :=
      ⟨hed.stores.valid, hroot, fun b hb => hed.stores.uses.ne_zero b (List.mem_append_left _ hb)⟩
    have hread' : t'.Read h'.rd t'.root :=
      ⟨hs'.valid, rfl, fun b hb => hs'.uses.ne_zero b (List.mem_append_left _ hb)⟩
    rw [hread'.unique hread]
    have hnodup := List.nodup_append.mp hed.stores.uses.nodup
    refine ⟨fun ha => hnodup.2.2 a ha a (by simp) rfl, ?_⟩
    exact hed.stores.uses.not_avail a (by simp)
  . rw [heq] at heq1
    cases heq1

end Exec

end Edit
end Leaves
