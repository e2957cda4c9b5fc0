import Leaves.Db.Removal
import Leaves.Merge.Merged
import Leaves.Trie.Reading

/-!
`exec` of the merger, from wherever the cursor of the destination stands: the trie it leaves, and
what becomes of the pages of earlier transactions.
-/

namespace Leaves
namespace Merger

open Cursor

/-- The destination `m` after the merge of `src`. The pages `o` are used by others. -/
structure Merged (pol : MergePolicy) (h : Heap) (m src : Trie) (o : List Addr) (h' : Heap)
    (c' : Cursor) (m' : Trie) : Prop where
  stores : h'.Stores m' o
  entries : m'.entries = OrdMap.mergeWith pol.choose m.entries src.entries
  root : c'.root = m'.root
  page : ∀ b ∈ o, h'.page b = h.page b
  keeps : (∀ t ∈ m, ∀ s ∈ src, Clean pol [] t s) → h.Keeps h'

variable {pol : MergePolicy} {h : Heap} {c : Cursor} {m : Trie} {t src : Tree} {pos : Option Key}
  {o : List Addr}

section Example

/-- The keys `[]`, `a` and `b`. -/
def threeKeys : Tree :=
  .node 2097336 [] [(none, .leaf 2097216 [] ⟨false, [1]⟩),
    (some 0x61, .leaf 2097296 [0x61] ⟨false, [2]⟩), (some 0x62, .leaf 2097392 [0x62] ⟨false, [3]⟩)]

/-- The trie of the three keys in the transaction after the one that has written it. -/
theorem threeKeys_holds :
    ∃ h, Edit.run (Heap.create Edit.areas) 0 (emptyKey ++ [.nextTransaction 0]) =
        some (h, threeKeys.addr) ∧
      h.Holds threeKeys [] ∧ ∀ a ∈ threeKeys.addrs, h.needsCow a = true := by
  have hfits :
      Edit.runFits (Heap.create Edit.areas) 0 (emptyKey ++ [.nextTransaction 0]) = true := by
    decide +kernel
  obtain ⟨h, root, hrun, t, hs, hroot, -⟩ :=
    Edit.run_represents (Edit.represents_create Edit.areas) hfits
  have hpages : (Edit.run (Heap.create Edit.areas) 0 (emptyKey ++ [.nextTransaction 0])).all
      (fun r => decide (r.2 = threeKeys.addr) &&
      decide (r.1.rd 2097336 =
        .trie ⟨[], [(none, 2097216), (some 0x61, 2097296), (some 0x62, 2097392)]⟩) &&
      decide (r.1.rd 2097216 = .leaf ⟨[], false, [1]⟩) &&
      decide (r.1.rd 2097296 = .leaf ⟨[0x61], false, [2]⟩) &&
      decide (r.1.rd 2097392 = .leaf ⟨[0x62], false, [3]⟩) &&
      threeKeys.addrs.all fun a => r.1.needsCow a) = true := by
    decide +kernel
  rw [hrun, Option.all_some] at hpages
  simp only [Bool.and_eq_true, decide_eq_true_eq, List.all_eq_true] at hpages
  obtain ⟨⟨⟨⟨⟨rfl, hnode⟩, hempty⟩, ha⟩, hb⟩, hcow⟩ := hpages
  have hst : Tree.Stored h.rd threeKeys := by
    refine Tree.stored_node.mpr ⟨hnode, ?_⟩
    simp only [List.forall_mem_cons, Tree.stored_leaf, hempty, ha, hb]
    simp
  cases t with
  | none => exact absurd hroot (by decide)
  | some t =>
    have hsame : t = threeKeys :=
      Tree.stored_unique (hs.valid.stored t rfl) hst hroot.symm
    subst hsame
    exact ⟨h, hrun, hs.holds, hcow⟩

theorem threeKeys_short : ShortTree threeKeys := by
  unfold ShortTree
  decide

/-- The keys `a` and `ac`. -/
def ac : Tree :=
  .node 8 [0x61] [(none, .leaf 16 [] ⟨false, [4]⟩), (some 0x63, .leaf 24 [0x63] ⟨false, [5]⟩)]

theorem ac_source : Source (.standard id) [] ac := by
  refine ⟨?_, ?_, fun _ _ => rfl, fun _ => rfl, ?_, ?_⟩
  . simp only [ac, Tree.wf_node, Tree.wf_leaf, List.forall_mem_cons]
    refine ⟨by decide, by simp, by unfold Branches.Sorted; decide, ⟨?_, ?_, by simp⟩, by decide,
      by decide, by simp⟩
    . exact ⟨rfl, fun _ => rfl⟩
    . exact ⟨rfl, fun _ => rfl⟩
  . decide
  . unfold MergePolicy.Fits
    decide
  . decide

end Example

/-- Where the search for the root of the source ends. -/
theorem exec_found (hs : h.Holds t o) (hshort : ShortTree t) (hc : c.Stands (some t) pos)
    (hsrc : Source pol [] src) (hok : c.FindOk src.label) :
    ∃ c1 q, c.find h.rd src.label = some c1 ∧ c1.stack ≠ [] ∧
      Found pol h c1 [] t src o (t.search [] src.label) q := by
  have hlen : src.label.length ≤ MAX_KEY_SIZE := by
    have := Tree.length_label_le hsrc.wf
    rw [MAX_KEY_SIZE]
    omega
  have hvalid := hs.stores.valid
  have hpos : c.stack = [] ∨ ∃ K, c.Stopped (t.search [] K) := by
    cases pos with
    | none => exact Or.inl (hc.off (Or.inr rfl))
    | some K => exact Or.inr ⟨K, hc.stack t rfl K rfl⟩
  obtain ⟨c1, hfind, hroot, hstop⟩ := find_stopped hc.root (hvalid.addr_ne t rfl) hpos hs.stored
    hs.wf (hshort.shallow hs.wf) hlen hok
  obtain ⟨idx, hstack⟩ := hstop.stack
  have hends := Tree.search_root_ends hs.wf src.label
  refine ⟨c1, (t.search [] src.label).path, hfind, ?_, hs, ?_, hsrc, trivial,
    hshort, hroot.trans hc.root, hstop, hends, (List.append_nil _).symm, hends.plug⟩
  . rw [hstack]
    exact List.cons_ne_nil _ _
  . rintro s ⟨⟩

theorem exec_eq (pol : MergePolicy) {c1 : Cursor} (hfind : c.find h.rd src.label = some c1)
    (hne : c1.stack ≠ []) :
    ∃ n, src.height = n + 1 ∧ exec pol h c (some src) =
      mergeFound pol (mergeNode pol n) h c1 src (u16 (Path.str []).length)
        (Path.str [] ++ src.label) := by
  obtain ⟨n, hn⟩ : ∃ n, src.height = n + 1 := by
    cases src <;> exact ⟨_, rfl⟩
  refine ⟨n, hn, ?_⟩
  rw [exec, hn, mergeNode, List.nil_append, hfind]
  simp only [hne, ↓reduceIte]
  rfl

/-- A merge into a trie. -/
theorem exec_some (hs : h.Holds t o) (hshort : ShortTree t) (hc : c.Stands (some t) pos)
    (hsrc : Source pol [] src) (hok : c.FindOk src.label) :
    ∃ h' c' t', exec pol h c (some src) = .ok (h', c') ∧
      Merged pol h (some t) (some src) o h' c' (some t') ∧ ShortTree t' := by
  obtain ⟨c1, q, hfind, hne, hf⟩ := exec_found hs hshort hc hsrc hok
  obtain ⟨n, hn, heq⟩ := exec_eq pol hfind hne
  have hchild : ∀ a k sarr, src = .node a k sarr →
      ∀ x ∈ sarr, MergesAt pol (mergeNode pol n) x.2 := by
    rintro a k sarr rfl x hx
    have hlt := Tree.height_lt_of_mem (a := a) (c := k) hx
    exact mergeNode_merges (by omega)
  obtain ⟨h', c', t', hmerge, hdone⟩ := mergeFound_merges hf hchild
  have hwf' : t'.WF := hdone.holds.wf
  refine ⟨h', c', t', heq.trans hmerge,
    ⟨hdone.holds.stores, ?_, hdone.root, hdone.spares.page, fun hclean => ?_⟩,
    hdone.merges.short [] hshort hwf' hsrc⟩
  . exact OrdMap.eq_mergeWith (Tree.ascending_entries hs.wf) (Tree.ascending_entries hwf')
      (Tree.ascending_entries hsrc.wf) hdone.merges
  . exact hdone.spares.keeps (hclean t rfl src rfl)

/-- A merge into an empty destination is a copy, whatever the policy. -/
theorem exec_none (hu : h.Uses o) (hroot : c.root = 0) (hstack : c.stack = [])
    (hwf : src.WF) (hne : ∀ a ∈ src.addrs, a ≠ 0) (hfits : pol.Fits src) :
    ∃ h' c' copy, exec pol h c (some src) = .ok (h', c') ∧ Copies pol [] src h o h' copy ∧
      h'.Stores copy o ∧ c'.root = copy.root := by
  have hlen : src.label.length ≤ MAX_KEY_SIZE := by
    have := Tree.length_label_le hwf
    rw [MAX_KEY_SIZE]
    omega
  have hfind : c.find h.rd src.label = some { c with restKey := src.label } := by
    rw [find_of_le hlen, if_pos hstack, findRest, if_pos hstack, if_pos hroot]
  obtain ⟨copy, h', hcopy, hc⟩ : ∃ copy h', selectiveDeepCopySubtree pol src h [] =
      .ok (copy.map Tree.addr, h') ∧ Copies pol [] src h o h' copy := copy_copies hu hwf hne hfits
  obtain ⟨n, hn⟩ : ∃ n, src.height = n + 1 := by
    cases src <;> exact ⟨_, rfl⟩
  refine ⟨h', { c with restKey := src.label, root := copy.root }, copy, ?_, hc,
    ⟨hc.adds.uses, ⟨fun t ht => ?_, hc.wf, hc.stored⟩⟩, rfl⟩
  . rw [exec, hn, mergeNode, List.nil_append, hfind]
    simp only [hstack, ↓reduceIte, hcopy, bind, Except.bind]
    cases copy <;> rfl
  . refine hc.adds.uses.ne_zero _ (List.mem_append_left _ ?_)
    cases ht
    exact Tree.addr_mem_addrs t

/--
What the policy does not refuse is copied into an empty destination: a key is refused for itself, or
with a node it is below of.
-/
theorem exec_copied (hu : h.Uses o) (hroot : c.root = 0) (hstack : c.stack = []) (hwf : src.WF)
    (hne : ∀ a ∈ src.addrs, a ≠ 0) (hfits : pol.Fits src) :
    ∃ h' c' copy, exec pol h c (some src) = .ok (h', c') ∧ h'.Stores copy o ∧
      c'.root = copy.root ∧
      copy.entries = (src.entries.filter fun e =>
        pol.mayAddLeaf e.1 e.2 && (src.visits e.1).all pol.mayAddTrie).map
          (fun e => (e.1, pol.migrated e.2)) ∧
      (∀ b ∈ o, h'.page b = h.page b) ∧ h.Keeps h' := by
  obtain ⟨h', c', copy, heq, hc, hstores, hroot'⟩ := exec_none hu hroot hstack hwf hne hfits
  exact ⟨h', c', copy, heq, hstores, hroot', hc.entries, hc.adds.page, hc.adds.keeps⟩

/-- A policy that refuses the key `ac`. -/
def withoutAc : MergePolicy :=
  { MergePolicy.standard id with mayAddLeaf := fun key _ => key != [0x61, 0x63] }

/-- Everything but this key is copied into a new database. -/
theorem exec_copied_ac :
    ∃ h' c' copy, exec withoutAc (Heap.create Edit.areas) (init 0) (some ac) = .ok (h', c') ∧
      copy.entries = [([0x61], ⟨false, [4]⟩)] ∧ h'.Stores copy [] ∧ c'.root = copy.root := by
  obtain ⟨t, hs, -, -⟩ := Edit.represents_create Edit.areas
  have hempty : (Heap.create Edit.areas).Uses [] :=
    ⟨hs.uses.sound, hs.uses.recycle, List.nodup_nil, by simp, by simp, by simp⟩
  have hfits : withoutAc.Fits ac := ac_source.fits
  obtain ⟨h', c', copy, heq, hstores, hroot, hentries, -⟩ :=
    exec_copied (c := init 0) hempty rfl rfl ac_source.wf ac_source.complete hfits
  exact ⟨h', c', copy, heq, hentries.trans (by decide +kernel), hstores, hroot⟩

/-- A merge of a source that the policy adds. -/
theorem exec_merges {src : Trie} (hs : h.Stores m o) (hshort : ∀ t ∈ m, ShortTree t)
    (hc : c.Stands m pos) (hsrc : ∀ s ∈ src, Source pol [] s) (hok : ∀ s ∈ src, c.FindOk s.label) :
    ∃ h' c' m', exec pol h c src = .ok (h', c') ∧ Merged pol h m src o h' c' m' ∧
      ∀ t ∈ m', ShortTree t := by
  cases src with
  | none => exact ⟨h, c, m, rfl, ⟨hs, rfl, hc.root, fun _ _ => rfl, fun _ => .refl h⟩, hshort⟩
  | some src =>
    have hsource := hsrc src rfl
    cases m with
    | some t =>
      obtain ⟨h', c', t', heq, hmerged, hshort'⟩ :=
        exec_some hs.holds (hshort t rfl) hc hsource (hok src rfl)
      refine ⟨h', c', some t', heq, hmerged, ?_⟩
      rintro _ ⟨rfl⟩
      exact hshort'
    | none =>
      obtain ⟨h', c', copy, heq, hcopies, hstores, hroot⟩ := exec_none hs.uses hc.root
        (hc.off (Or.inl rfl)) hsource.wf hsource.complete hsource.fits
      have hentries : copy.entries = src.entries.map fun e => (e.1, pol.migrated e.2) := by
        rw [hcopies.entries, hsource.copied]
      refine ⟨h', c', copy, heq,
        ⟨hstores, ?_, hroot, hcopies.adds.page, fun _ => hcopies.adds.keeps⟩, ?_⟩
      . refine OrdMap.eq_mergeWith OrdMap.ascending_nil hstores.valid.ascending
          (Tree.ascending_entries hsource.wf) fun k => ?_
        rw [hentries, OrdMap.lookup_mapValue]
        change _ = OrdMap.merged pol.choose k none (OrdMap.lookup src.entries k)
        cases hk : OrdMap.lookup src.entries k with
        | none => rfl
        | some v => exact (MergePolicy.merged_add (hsource.mayAddLeaf hk)).symm
      . rintro t ⟨rfl⟩ e he
        have hmem : e ∈ src.entries.map fun e => (e.1, pol.migrated e.2) := hentries ▸ he
        obtain ⟨e', he', rfl⟩ := List.mem_map.mp hmem
        exact hsource.short e' he'

end Merger
end Leaves
