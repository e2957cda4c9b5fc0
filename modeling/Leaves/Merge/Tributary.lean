import Leaves.Db.Sweep
import Leaves.Merge.Exec
import Leaves.Multi.Merging

/-!
Merging a tributary into the main database, `_do_merge` in `multi/_confluence_db.hpp`, on the pages
of the main database: a cursor removes the keys of the delete trie, then the merger goes on with it.
-/

namespace Leaves
namespace Merger

open Cursor
open OrdMap (lookup)

/-- The first pass of `_do_merge`: the keys of the delete trie one after the other. -/
def deletePass (mayDelete : Key → Bool) (h : Heap) (c : Cursor) :
    List Key → Except Fault (Heap × Cursor)
  | [] => .ok (h, c)
  | key :: keys =>
    if mayDelete key then
      match c.find h.rd key with
      | none => .error .keyTooBig
      | some c =>
        if c.isValid h.rd && c.currentKey == key then do
          let (h, c) ← c.remove h
          deletePass mayDelete h c keys
        else deletePass mayDelete h c keys
    else deletePass mayDelete h c keys

/-- `_do_merge` into the main database under `root`, with a cursor of its own. -/
def doMerge (mayDelete : Key → Bool) (pol : MergePolicy) (h : Heap) (root : Addr)
    (deleted : List Key) (src : Trie) : Except Fault (Heap × Addr) := do
  let (h, c) ← deletePass mayDelete h (init root) deleted
  let (h, c) ← exec pol h c src
  .ok (h, c.root)

section DeletePass

variable {h : Heap} {c : Cursor} {m : Trie} {o : List Addr} {pos : Option Key}

/--
The keys the search was not stuck on: what it has found and what it has not make a key of `R`.
-/
def StuckOn (R : Key → Prop) (c : Cursor) : Prop :=
  c.stack = [] ∨ c.restKey = [] ∨ R (c.currentKey ++ c.restKey)

/-- A tombstone the cursor has been moved to. -/
theorem find_deleted {key : Key} {R : Key → Prop} (hs : h.Stores m o) (hshallow : m.Shallow)
    (hc : c.Stands m pos) (hlen : key.length ≤ MAX_KEY_SIZE) (hok : c.FindOk key)
    (hR : lookup m.entries key = none → R key) :
    ∃ c1, c.find h.rd key = some c1 ∧ c1.Stands m (some key) ∧
      ((c1.isValid h.rd && c1.currentKey == key) = (lookup m.entries key).isSome) ∧
      (lookup m.entries key = none → StuckOn R c1) := by
  obtain ⟨c1, hfind⟩ : ∃ c1, c.find h.rd key = some c1 := find_isSome hlen
  have hstands := hc.find hs.valid hshallow hlen hok
  rw [Cursor.move, hfind, Option.getD_some] at hstands
  refine ⟨c1, hfind, hstands, ?_, ?_⟩
  . rcases hstands.off_iff with ⟨hnil, hnone⟩ | ⟨t, K, rfl, hK, hstop⟩
    . have hm : m = none := hnone.resolve_right (by simp)
      subst hm
      rw [isValid, hnil]
      rfl
    . cases hK
      have hwf := hs.valid.wf t rfl
      have hends := Tree.search_root_ends hwf key
      have hrd := (Path.stored_plug.mp (hends.plug ▸ hs.valid.stored t rfl)).2.root
      obtain ⟨idx, hstack⟩ := hstop.stack
      rcases hends.hit_or_miss hwf with ⟨a, v, htree, hpre, hcmp, hget⟩ | ⟨hcmp, hget⟩
      . have hget' : lookup (Trie.entries (some t)) key = some v := hget
        have hcur : c1.currentKey = key := by
          rw [hstop.currentKey, htree, Tree.label, hpre, List.take_length]
          exact hends.key.symm
        rw [htree] at hstack hrd
        rw [hget', isValid, hstack]
        simp only [hrd, Tree.root, Tree.addr, hcmp, hcur] at hrd ⊢
        simp
      . have hget' : lookup (Trie.entries (some t)) key = none := hget
        rw [hget', isValid, hstack]
        simp only
        split
        next => simp [hcmp]
        next => rfl
  . intro hnone
    rcases hstands.off_iff with ⟨hnil, -⟩ | ⟨t, K, rfl, hK, hstop⟩
    . exact Or.inl hnil
    . cases hK
      have hends := Tree.search_root_ends (hs.valid.wf t rfl) key
      refine Or.inr (Or.inr ?_)
      have hkey : c1.currentKey ++ c1.restKey = key := by
        rw [hstop.currentKey, hstop.restKey, List.append_assoc]
        exact hends.key.symm
      rw [hkey]
      exact hR hnone

/-- Removing the key the cursor has come to. -/
theorem remove_deleted {key : Key} (hs : h.Stores m o) (hshallow : m.Shallow)
    (hsmall : ∀ e ∈ m.entries, Cursor.Small e) (hc : c.Stands m (some key))
    (hkey : (lookup m.entries key).isSome = true) :
    ∃ h' c' m' pos', c.remove h = .ok (h', c') ∧ h'.Stores m' o ∧ m'.Shallow ∧
      m'.entries = OrdMap.erase m.entries key ∧ c'.Stands m' pos' ∧
      (c'.stack = [] ∨ c'.restKey = []) ∧ h.Keeps h' ∧ ∀ b ∈ o, h'.page b = h.page b := by
  rcases hc.off_iff with ⟨hnil, hnone⟩ | ⟨t, K, rfl, hK, hstop⟩
  . have hm : m = none := hnone.resolve_right (by simp)
    subst hm
    simp [Trie.entries] at hkey
  . cases hK
    have hwf := hs.valid.wf t rfl
    have hends := Tree.search_root_ends hwf key
    rcases hends.hit_or_miss hwf with ⟨a, v, htree, -, -, -⟩ | ⟨-, hget⟩
    . obtain ⟨herase, hout⟩ := remove_proceeds hs.holds hends hstop hc.root htree
      have hplug := hends.plug
      have hpwf := (Path.wf_plug.mp (hplug ▸ hwf)).1
      have hfits : (t.search [] key).path.combineFits = true := by
        refine combineFits_of_small hpwf fun e he => hsmall e ?_
        rw [Trie.entries, ← hplug, Path.entries_plug]
        rw [List.mem_append] at he
        rw [List.mem_append, List.mem_append]
        tauto
      rw [Outcome, if_pos hfits] at hout
      obtain ⟨h', c', m', heq, hp⟩ := hout
      have hshallow' : m'.Shallow := hp.shallow _ (hplug ▸ hshallow t rfl)
      have hes : m'.entries = OrdMap.erase t.entries key := hp.entries.trans herase.symm
      refine ⟨h', c', m', ?_⟩
      have hm' := hp.stores.valid
      rcases hp.rests (hshallow t rfl) hshallow' with hnil | ⟨t', q, a', k', v', rfl, hleaf⟩
      . exact ⟨none, heq, hp.stores, hshallow', hes, ⟨hp.root, by simp, fun _ => hnil⟩,
          Or.inl hnil, hp.keeps, hp.page⟩
      . exact ⟨_, heq, hp.stores, hshallow', hes, hleaf.stands (hm'.wf t' rfl) hp.root,
          Or.inr hleaf.stopped.restKey, hp.keeps, hp.page⟩
    . have hget' : lookup (Trie.entries (some t)) key = none := hget
      rw [hget'] at hkey
      exact absurd hkey (by decide)

/-- The main database after the first pass. -/
structure Deleted (h : Heap) (es : List (Key × Value)) (o : List Addr) (R : Key → Prop) (h' : Heap)
    (c' : Cursor) (m' : Trie) : Prop where
  stores : h'.Stores m' o
  shallow : m'.Shallow
  entries : m'.entries = es
  stands : ∃ pos, c'.Stands m' pos
  stuck : StuckOn R c'
  keeps : h.Keeps h'
  page : ∀ b ∈ o, h'.page b = h.page b

theorem applyDeletions_cons (main deleted : List (Key × Value)) (e : Key × Value) :
    Confluence.applyDeletions main (e :: deleted) =
      Confluence.applyDeletions
        (if (lookup main e.1).isSome then OrdMap.erase main e.1 else main) deleted := rfl

theorem mem_of_mem_applyDeletions {main deleted : List (Key × Value)} {e : Key × Value}
    (he : e ∈ Confluence.applyDeletions main deleted) : e ∈ main := by
  induction deleted generalizing main with
  | nil => exact he
  | cons d deleted ih =>
    rw [applyDeletions_cons] at he
    have hmem := ih he
    split at hmem
    next => exact OrdMap.mem_of_mem_erase hmem
    next => exact hmem

/-- The tombstones come in order, so the search for one is never stuck on another. -/
theorem deletePass_deletes (mayDelete : Key → Bool) {deleted : List (Key × Value)} {R : Key → Prop}
    (hs : h.Stores m o) (hshallow : m.Shallow) (hsmall : ∀ e ∈ m.entries, Cursor.Small e)
    (hc : c.Stands m pos) (hasc : OrdMap.Ascending deleted)
    (hlen : ∀ e ∈ deleted, e.1.length ≤ MAX_KEY_SIZE)
    (hstuck : StuckOn (fun k => R k ∧ ∀ e ∈ deleted, k < e.1) c)
    (hR : ∀ e ∈ deleted, lookup m.entries e.1 = none → R e.1) :
    ∃ h' c' m', deletePass mayDelete h c (deleted.map (·.1)) = .ok (h', c') ∧
      Deleted h (Confluence.applyDeletions m.entries (deleted.filter fun e => mayDelete e.1)) o R
        h' c' m' := by
  induction deleted generalizing h c m pos with
  | nil =>
    refine ⟨h, c, m, rfl, hs, hshallow, rfl, ⟨pos, hc⟩, ?_, .refl h, fun _ _ => rfl⟩
    exact hstuck.imp id (Or.imp id And.left)
  | cons e deleted ih =>
    rw [OrdMap.ascending_cons] at hasc
    rw [List.forall_mem_cons] at hlen hR
    rw [List.map_cons, deletePass, List.filter_cons]
    by_cases hmay : mayDelete e.1 = true
    . rw [if_pos hmay, if_pos hmay, applyDeletions_cons]
      have hok : c.FindOk e.1 := by
        rcases hstuck with hnil | hrest | ⟨-, hlt⟩
        . exact Or.inl hnil
        . exact Or.inr (Or.inr hrest)
        . by_cases hkey : e.1 = c.currentKey
          . -- what is stuck is not smaller than the key, unless nothing is left of it
            have hlt' := hlt e List.mem_cons_self
            rw [hkey] at hlt'
            nth_rewrite 2 [← List.append_nil c.currentKey] at hlt'
            rw [Lex.append_lt_append_iff] at hlt'
            exact absurd hlt' (List.not_lt_nil _)
          . exact Or.inr (Or.inl hkey)
      obtain ⟨c1, hfind, hstands, hvalid, hmiss⟩ := find_deleted
        (R := fun k => R k ∧ ∀ e ∈ deleted, k < e.1) hs hshallow hc hlen.1 hok
        (fun hnone => ⟨hR.1 hnone, hasc.1⟩)
      simp only [hfind, hvalid]
      by_cases hin : (lookup m.entries e.1).isSome = true
      . rw [if_pos hin, if_pos hin]
        obtain ⟨h1, c2, m1, pos1, hremove, hs1, hshallow1, hes, hstands1, hrest, hkeeps, hpage⟩ :=
          remove_deleted hs hshallow hsmall hstands hin
        have hsub : ∀ x ∈ m1.entries, x ∈ m.entries := by
          intro x hx
          rw [hes] at hx
          exact OrdMap.mem_of_mem_erase hx
        obtain ⟨h', c', m', heq, hd⟩ := ih hs1 hshallow1 (fun x hx => hsmall x (hsub x hx)) hstands1
          hasc.2 hlen.2 (hrest.imp id Or.inl) (fun x hx hnone => by
            refine hR.2 x hx ?_
            rw [hes, OrdMap.lookup_erase, if_neg (ne_of_gt (hasc.1 x hx))] at hnone
            exact hnone)
        refine ⟨h', c', m', ?_, hd.stores, hd.shallow, ?_, hd.stands, hd.stuck,
          hkeeps.trans hd.keeps, fun b hb => (hd.page b hb).trans (hpage b hb)⟩
        . simp only [hremove, bind, Except.bind]
          exact heq
        . rw [hd.entries, hes]
      . rw [if_neg hin, if_neg hin]
        have hnone : lookup m.entries e.1 = none := by simpa using hin
        exact ih hs hshallow hsmall hstands hasc.2 hlen.2 (hmiss hnone) hR.2
    . rw [if_neg hmay, if_neg hmay]
      refine ih hs hshallow hsmall hc hasc.2 hlen.2 (hstuck.imp id (Or.imp id ?_)) hR.2
      exact fun hk => ⟨hk.1, fun x hx => hk.2 x (List.mem_cons_of_mem _ hx)⟩

end DeletePass

section DoMerge

variable {h : Heap} {m : Trie} {o : List Addr}

/--
Merging a tributary: the tombstones the aspect lets through are applied, then the data is merged. If
the main database does not have the key of a tombstone, the root of the data may not end inside this
key: the search for it would be taken for finished.
-/
theorem doMerge_merged (mayDelete : Key → Bool) {pol : MergePolicy}
    {deleted : List (Key × Value)} {src : Trie} (hs : h.Stores m o)
    (hsmall : ∀ e ∈ m.entries, Cursor.Small e) (hshort : ∀ e ∈ m.entries, e.1.length < 65536)
    (hasc : OrdMap.Ascending deleted) (hlen : ∀ e ∈ deleted, e.1.length ≤ MAX_KEY_SIZE)
    (hsrc : ∀ s ∈ src, Source pol [] s)
    (hstuck : ∀ e ∈ deleted, lookup m.entries e.1 = none →
      ∀ s ∈ src, s.label <+: e.1 → s.label = e.1) :
    ∃ h' m', doMerge mayDelete pol h m.root (deleted.map (·.1)) src = .ok (h', m'.root) ∧
      h'.Stores m' o ∧
      m'.entries = OrdMap.mergeWith pol.choose
        (Confluence.applyDeletions m.entries (deleted.filter fun e => mayDelete e.1)) src.entries ∧
      ∀ b ∈ o, h'.page b = h.page b := by
  have hshallow : m.Shallow := by
    rintro t ⟨rfl⟩
    exact ShortTree.shallow (fun e he => hshort e he) (hs.valid.wf t rfl)
  obtain ⟨h1, c1, m1, heq1, hd⟩ := deletePass_deletes mayDelete
    (R := fun k => ∀ s ∈ src, s.label <+: k → s.label = k) hs hshallow hsmall (stands_init m) hasc
    hlen (Or.inl rfl) hstuck
  obtain ⟨pos, hstands⟩ := hd.stands
  have hok : ∀ s ∈ src, c1.FindOk s.label := by
    intro s hmem
    rcases hd.stuck with hnil | hrest | hR
    . exact Or.inl hnil
    . exact Or.inr (Or.inr hrest)
    . by_cases hkey : s.label = c1.currentKey
      . have hsame := hR s hmem (hkey ▸ List.prefix_append _ _)
        rw [hkey, List.self_eq_append_right] at hsame
        exact Or.inr (Or.inr hsame)
      . exact Or.inr (Or.inl hkey)
  have hshort1 : ∀ t ∈ m1, ShortTree t := by
    rintro t ⟨rfl⟩ e he
    refine hshort e ?_
    have hmem : e ∈ Trie.entries (some t) := he
    rw [hd.entries] at hmem
    exact mem_of_mem_applyDeletions hmem
  obtain ⟨h2, c2, m2, heq2, hmerged, -⟩ := exec_merges hd.stores hshort1 hstands hsrc hok
  refine ⟨h2, m2, ?_, hmerged.stores, ?_, fun b hb => (hmerged.page b hb).trans (hd.page b hb)⟩
  . rw [doMerge]
    simp only [heq1, heq2, hmerged.root, bind, Except.bind]
  . rw [hmerged.entries, hd.entries]

end DoMerge

end Merger
end Leaves
