import Unameit.Region.Rename

/-!
# Region.RenameCell — renaming a cell

A cell takes its regions along, and then the regions next to the new name are adopted.  Plain ones
cannot be, since that would take them to another cell, and none can be that has the name of a moved
region.  But a region that is adopted may still be in between two moved regions, which nothing looks
for (`CellTarget.keeps_outer_iff`).  If the new name leads to an owner in the cell itself, the
regions to be adopted are looked for below that owner (`CellTarget.keeps_inner_iff`).
-/

namespace Unameit
namespace Region

open List

variable {r k : Uuid} {x : Name}

open Region.Tree

variable {tree : Tree} {u o : Uuid} {t rel : Name}

noncomputable def Tree.cellMoved (tree : Tree) (u o : Uuid) (t rel : Name) : Tree :=
  (tree.updated u o t rel).writeAll (cellSubs (tree.updated u o t rel) (tree.item u))
    (movedValues tree (tree.updated u o t rel) u .postupdate (tree.item u) ⟨t, rel, o⟩)

noncomputable def Tree.cellTable (tree : Tree) (u o : Uuid) (t rel : Name) : Moved :=
  movedTable tree (tree.updated u o t rel) u .postupdate (tree.item u) ⟨t, rel, o⟩
    (cellSubs (tree.updated u o t rel) (tree.item u))

def movedName (tree : Tree) (u : Uuid) (t : Name) (k : Uuid) : Name :=
  trim (tree.name k) (tree.name u) ++ t

structure CellTarget (tree : Tree) (u o : Uuid) (t rel : Name) : Prop
    extends Target tree u o t rel where
  cell : tree.isCell u = true

namespace CellTarget

lemma item_cellMoved (r : Uuid) (hr : r ∈ tree.live) :
    (tree.cellMoved u o t rel).item r =
      if Extends ((tree.updated u o t rel).name r) (tree.name u) then
        movedValues tree (tree.updated u o t rel) u .postupdate (tree.item u) ⟨t, rel, o⟩ r
      else (tree.updated u o t rel).item r := by
  have hmem : r ∈ cellSubs (tree.updated u o t rel) (tree.item u) ↔
      Extends ((tree.updated u o t rel).name r) (tree.name u) := by
    rw [mem_cellSubs]
    exact and_iff_right hr
  by_cases hext : Extends ((tree.updated u o t rel).name r) (tree.name u)
  · rw [if_pos hext, cellMoved, item_writeAll_of_mem (hmem.2 hext)]
  · rw [if_neg hext, cellMoved,
      item_writeAll_of_not_mem fun hsub => hext (hmem.1 hsub)]

/-- Regions other than the cell whose owner is not in the cell are left alone. -/
theorem item_kept (hr : r ∈ tree.live) (hru : r ≠ u) (howner : tree.owner r ∉ tree.regionsOf u) :
    (tree.cellMoved u o t rel).item r = tree.item r := by
  have hitem : (tree.updated u o t rel).item r = tree.item r := item_updated_of_ne hru
  have howner' : (tree.updated u o t rel).owner r ∉ tree.regionsOf u := by
    rwa [owner, hitem]
  rw [item_cellMoved r hr, movedValues, if_neg howner', ite_self, hitem]

lemma mem_movedTable_iff {before : Tree} {old new : Values} {subs : List Uuid} :
    (x, k) ∈ movedTable tree before u .postupdate old new subs ↔
      (k ∈ subs ∧ before.owner k ∈ tree.regionsOf u ∧ tree.isCell k = false ∧
        x = trim (before.name k) old.name ++ new.name) ∨ x = new.name ∧ k = u := by
  simp only [movedTable, if_true, mem_append, mem_flatMap, mem_reverse,
    mem_singleton, Prod.mk.injEq]
  refine or_congr_left ⟨?_, ?_⟩
  · rintro ⟨r, hr, hentry⟩
    unfold movedEntry at hentry
    split_ifs at hentry with hcond
    · obtain ⟨rfl, rfl⟩ := Prod.mk.inj (mem_singleton.1 hentry)
      exact ⟨hr, hcond.1, hcond.2.1, rfl⟩
    · cases hentry
  · rintro ⟨hk, howner, hplain, rfl⟩
    refine ⟨k, hk, ?_⟩
    rw [movedEntry, if_pos ⟨howner, hplain, rfl⟩]
    exact mem_singleton_self _

section

variable (h : CellTarget tree u o t rel)

include h

lemma cut : Cut tree.live (tree.regionsOf u) tree.name u (tree.owner u) :=
  h.canonical.cut_cell h.live h.ne_root h.cell

lemma sameWays_updated : SameWays tree (tree.updated u o t rel) where
  items := rfl
  isCell := rfl
  owner := by
    intro r hr
    have hne : r ≠ u := by
      rintro rfl
      simp [h.cell] at hr
    rw [owner, item_updated_of_ne hne, owner]

noncomputable abbrev after (_ : CellTarget tree u o t rel) : Tree := tree.cellMoved u o t rel

noncomputable abbrev table (_ : CellTarget tree u o t rel) : Moved := tree.cellTable u o t rel

lemma sameWays : SameWays tree h.after :=
  h.sameWays_updated.writeAll_movedValues _

lemma item_owned (hr : r ∈ tree.live) (hru : r ≠ u) (howner : tree.owner r ∈ tree.regionsOf u) :
    h.after.item r =
      if tree.isCell r then
        ⟨tree.name r, trim (tree.name r) (tree.name u) ++ tree.relname u, tree.owner u⟩
      else ⟨movedName tree u t r, tree.relname r, tree.owner r⟩ := by
  have hitem : (tree.updated u o t rel).item r = tree.item r := item_updated_of_ne hru
  have howner' : (tree.updated u o t rel).owner r ∈ tree.regionsOf u := by
    rwa [owner, hitem]
  have hroot : r ≠ tree.root := by
    rintro rfl
    rw [h.canonical.owner_root] at howner
    exact Renamed.root_not_mem h.canonical h.cut h.ne_root howner
  have hext : Extends ((tree.updated u o t rel).name r) (tree.name u) := by
    rw [name, hitem]
    exact (h.canonical.placed hr hroot).nearest.ext.trans_suffix (h.cut.top_suffix howner)
  rw [item_cellMoved r hr, if_pos hext, movedValues, if_pos howner']
  simp only [if_true, name, relname, owner, hitem, movedName]

lemma item_self_outer (ho : o ∉ tree.regionsOf u) : h.after.item u = ⟨t, rel, o⟩ := by
  have howner : (tree.updated u o t rel).owner u ∉ tree.regionsOf u := by simpa [owner] using ho
  rw [item_cellMoved u h.live, movedValues, if_neg howner, ite_self, item_updated_self]

/-- An owner in the cell itself is replaced by the old owner. -/
theorem item_self_inner (ho : o ∈ tree.regionsOf u) : h.after.item u =
    ⟨t, trim t (tree.name u) ++ tree.relname u, tree.owner u⟩ := by
  have hname : (tree.updated u o t rel).name u = t := by simp [name]
  have howner : (tree.updated u o t rel).owner u ∈ tree.regionsOf u := by simpa [owner] using ho
  have hext : Extends t (tree.name u) := h.nearest.ext.trans_suffix (h.cut.top_suffix ho)
  rw [item_cellMoved u h.live, hname, if_pos hext, movedValues, if_pos howner, if_pos h.cell, hname]
  rfl

lemma name_self : h.after.name u = t := by
  by_cases ho : o ∈ tree.regionsOf u
  · rw [name, h.item_self_inner ho]
  · rw [name, h.item_self_outer ho]

lemma renamed : Renamed tree h.after (tree.regionsOf u) u := by
  have hplain : ∀ r ∈ tree.live, tree.isCell r = false → tree.owner r ∈ tree.regionsOf u →
      r ∈ tree.regionsOf u := fun r hr hr' howner =>
    ⟨hr, (inCell_plain_iff hr.1 hr').2 howner.2⟩
  have hne : ∀ r ∉ tree.regionsOf u, r ≠ u := fun r hr heq => hr (heq ▸ h.cut.top)
  refine { root := rfl, kept := ?_, orphan := ?_, items := rfl, deleted := rfl, isCell := rfl,
           inner := ?_, fqdn := ?_, fresh := ?_, nearest := ?_, relname := ?_ }
  · exact fun r hr howner => item_kept hr.1 (hne r hr.2) howner
  · intro r hr howner
    have hcell : tree.isCell r = true := by
      by_contra hcell
      exact hr.2 (hplain r hr.1 (by simpa using hcell) howner)
    rw [h.item_owned hr.1 (hne r hr.2) howner, if_pos hcell]
  · intro k hk hku
    have hcell := Tree.Canonical.plain_of_mem hk hku
    rw [h.item_owned hk.1 hku (h.canonical.owner_mem_regionsOf hk hku), if_neg (by simp [hcell]),
      h.name_self, movedName]
  · rw [h.name_self]
    exact h.fqdn
  · intro w hw heq
    rw [h.name_self] at heq
    exact h.free ⟨w, hw.1, hne w hw.2, heq⟩
  · rw [h.name_self, owner]
    by_cases ho : o ∈ tree.regionsOf u
    · rw [h.item_self_inner ho]
      exact h.cut.nearest_of_mem h.nearest ho
    · rw [h.item_self_outer ho]
      exact Cut.nearest_of_not_mem h.nearest ho
  · rw [h.name_self, relname, owner]
    by_cases ho : o ∈ tree.regionsOf u
    · have hu := (h.canonical.placed h.live h.ne_root).relname
      have hsuf : tree.name u <:+ t := (h.cut.top_suffix ho).trans h.nearest.ext.1
      rw [h.item_self_inner ho, append_assoc, ← hu, trim_append_of_suffix hsuf]
    · rw [h.item_self_outer ho]
      exact h.relname

lemma parts : Parts h.after (tree.live \ tree.regionsOf u)
    (tree.regionsOf u) u :=
  h.renamed.parts h.canonical h.cut h.ne_root

lemma name_moved (hk : k ∈ tree.regionsOf u) : h.after.name k = movedName tree u t k := by
  rw [h.renamed.name_inner hk, h.name_self, movedName]

/-! ## The table -/

lemma mem_cellTable_iff :
    (x, k) ∈ h.table ↔
      k ∈ tree.regionsOf u ∧ h.after.name k = x := by
  rw [table, cellTable, mem_movedTable_iff]
  by_cases hku : k = u
  · subst hku
    simp [h.cell, h.cut.top, h.name_self, eq_comm]
  have hitem : (tree.updated u o t rel).item k = tree.item k := item_updated_of_ne hku
  constructor
  · rintro (⟨hk, howner, hplain, rfl⟩ | ⟨-, hk⟩)
    · rw [mem_cellSubs, live_updated] at hk
      rw [owner, hitem] at howner
      have hmem : k ∈ tree.regionsOf u :=
        ⟨hk.1, (inCell_plain_iff hk.1.1 hplain).2 howner.2⟩
      refine ⟨hmem, ?_⟩
      rw [h.name_moved hmem, movedName, name, name, name, hitem]
    · exact absurd hk hku
  · rintro ⟨hk, rfl⟩
    have howner := h.canonical.owner_mem_regionsOf hk hku
    have hext : Extends (tree.name k) (tree.name u) :=
      ⟨h.cut.top_suffix hk, fun heq => hku (h.cut.inj hk.1 h.live heq.symm)⟩
    refine .inl ⟨?_, ?_, Tree.Canonical.plain_of_mem hk hku, ?_⟩
    · rw [mem_cellSubs, name, hitem]
      exact ⟨hk.1, hext⟩
    · rwa [owner, hitem]
    · rw [h.name_moved hk, movedName, name, name, name, hitem]

lemma tableOf : TableOf h.table (tree.regionsOf u)
    h.after.name := by
  intro x k
  rw [lookup_eq_some_iff_mem, h.mem_cellTable_iff]
  intro x k k' hk hk'
  rw [h.mem_cellTable_iff] at hk hk'
  exact h.parts.inj hk.1 hk'.1 (hk.2.trans hk'.2.symm)

noncomputable abbrev adopt (h : CellTarget tree u o t rel) : Tree → Uuid → Except Stop Tree :=
  adoptSubregion h.after h.table u .postupdate ⟨t, rel, o⟩

lemma finishUpdate_eq : finishUpdate tree u ⟨t, rel, o⟩ =
    (newSubs h.after ⟨t, rel, o⟩).foldlM h.adopt h.after := by
  have hupdate : udbUpdate tree u ⟨t, rel, o⟩ = .ok (tree.updated u o t rel) := by
    simp only [udbUpdate, checkOwner_cell h.cell]
    rfl
  have howner : ∀ r ∈ (tree.updated u o t rel).live,
      (tree.updated u o t rel).owner r ∈ tree.live := by
    intro r hr
    by_cases hru : r = u
    · rw [hru, owner, item_updated_self]
      exact h.nearest.mem
    · rw [owner, item_updated_of_ne hru]
      by_cases hroot : r = tree.root
      · rw [hroot, h.canonical.root.item]
        exact h.canonical.root.live
      · exact h.canonical.owner_live hr hroot
  have hold : updateOldSubregions u true .postupdate
      { tree := tree.updated u o t rel, new := ⟨t, rel, o⟩, old := tree.item u } =
        .ok (h.after, h.table) :=
    updateOldSubregions_cell h.canonical h.sameWays_updated (fun _ hr => hr) howner
  simp only [finishUpdate, hupdate, h.cell, hold, bind, Except.bind]
  rfl

/-! ## Regions that are adopted -/

noncomputable def adoptedValues (tree : Tree) (u o : Uuid) (t rel : Name) (r : Uuid) : Values :=
  let after := tree.cellMoved u o t rel
  match findMoved (tree.cellTable u o t rel) [] (after.name r) with
  | .ok (relcomps, k) => ⟨after.name r, relcomps, k⟩
  | .error _ => after.item r

def Unadoptable (tree : Tree) (u : Uuid) (t : Name) (r : Uuid) : Prop :=
  tree.isCell r = false ∨ ∃ k ∈ tree.regionsOf u, movedName tree u t k = tree.name r

lemma exists_found (hext : h.after.name u <:+ h.after.name r) :
    ∃ k ∈ tree.regionsOf u, ∃ relcomps,
      h.after.name r = relcomps ++ h.after.name k ∧
      (∀ k' ∈ tree.regionsOf u,
        h.after.name k' <:+ h.after.name r →
          h.after.name k' <:+ h.after.name k) ∧
      findMoved h.table [] (h.after.name r) =
        .ok (relcomps, k) :=
  findMoved_eq h.tableOf [] ⟨u, h.cut.top, hext⟩

lemma adopted (hr : r ∈ tree.live \ tree.regionsOf u)
    (hext : Extends (h.after.name r) (h.after.name u)) (hbad : ¬ Unadoptable tree u t r) :
    Parts.Adopted h.after (tree.regionsOf u) r
      (adoptedValues tree u o t rel r) := by
  obtain ⟨k, hk, relcomps, hrel, hmax, hfind⟩ := h.exists_found hext.1
  have hvalues : adoptedValues tree u o t rel r =
      ⟨h.after.name r, relcomps, k⟩ := by
    simp only [adoptedValues, hfind]
  have hne : h.after.name k ≠ h.after.name r := by
    intro heq
    rw [h.name_moved hk, h.renamed.name_eq hr] at heq
    exact hbad (.inr ⟨k, hk, heq⟩)
  rw [hvalues]
  refine ⟨rfl, ⟨hk, ⟨⟨relcomps, hrel.symm⟩, hne⟩, ?_⟩, hrel⟩
  exact fun k' hk' hext' => hmax k' hk' hext'.1

/-- One region of the last loop.  Its owner is above the new name, and the moved regions are all in
the cell, so what the loop has done before does not matter. -/
theorem adoptSubregion_eq (ho : o ∉ tree.regionsOf u) {done rest : List Uuid}
    (hl : newSubs h.after ⟨t, rel, o⟩ = done ++ r :: rest) :
    (¬ Unadoptable tree u t r ∧
      h.adopt (h.after.writeAll done (adoptedValues tree u o t rel)) r =
        .ok (h.after.writeAll (done ++ [r]) (adoptedValues tree u o t rel))) ∨
    (Unadoptable tree u t r ∧ ∃ e,
      h.adopt (h.after.writeAll done (adoptedValues tree u o t rel)) r =
        .error (.error e)) := by
  have hfirst : ∀ r' ∈ r :: done,
      r' ∈ Parts.First h.after (tree.live \ tree.regionsOf u) u := fun r' hr' =>
    (h.parts.mem_newSubs_iff (h.item_self_outer ho) r').1 (mem_of_mem_done hl hr')
  obtain ⟨hr, hext, howner⟩ := hfirst r mem_cons_self
  have hnodup : h.after.items.Nodup := h.canonical.nodup
  have hnot : r ∉ done := not_mem_of_nodup hl (hnodup.filter _)
  obtain ⟨k, hk, relcomps, hrel, hmax, hfind⟩ := h.exists_found hext.1
  have hitem : (h.after.writeAll done (adoptedValues tree u o t rel)).item r =
      h.after.item r := item_writeAll_of_not_mem hnot
  by_cases hnil : relcomps = []
  · -- a moved region has the name
    refine .inr ⟨.inr ⟨k, hk, ?_⟩, .edupregion r (h.after.name r), ?_⟩
    · rw [← h.name_moved hk, ← h.renamed.name_eq hr, hrel, hnil, nil_append]
    · simp only [adoptSubregion, if_true, name] at hfind ⊢
      simp only [hfind, hnil, bind, Except.bind, if_true]
      rfl
  have hvalues : adoptedValues tree u o t rel r =
      { h.after.item r with owner := k, relname := relcomps } := by
    simp only [adoptedValues, hfind]
    rfl
  have hstep : h.adopt (h.after.writeAll done (adoptedValues tree u o t rel)) r =
      udbUpdate (h.after.writeAll done (adoptedValues tree u o t rel)) r
        (adoptedValues tree u o t rel r) := by
    simp only [adoptSubregion, if_true, name] at hfind ⊢
    simp only [hfind, hnil, bind, Except.bind, if_false, hitem, hvalues]
  have hbad : Unadoptable tree u t r ↔ tree.isCell r = false := by
    refine or_iff_left ?_
    rintro ⟨k', hk', hname⟩
    rw [← h.name_moved hk', ← h.renamed.name_eq hr] at hname
    have hsuf := hmax k' hk' (hname ▸ suffix_refl _)
    rw [hname, hrel] at hsuf
    have hlen := hsuf.length_le
    have hpos := length_pos_iff.2 hnil
    rw [length_append] at hlen
    omega
  -- the ways of the old and of the new owner do not pass the regions of the loop
  obtain ⟨lx, c, hx, hxup⟩ := h.canonical.exists_way h.nearest.mem
  obtain ⟨hklive, ly, hy⟩ := hk
  have hcu : u ≠ c := by
    rintro rfl
    exact ho ⟨h.nearest.mem, lx, hx⟩
  have hdone : ∀ r' ∈ r :: done, r' ∉ o :: lx ∧ r' ∉ k :: ly := by
    intro r' hr'
    obtain ⟨hW, hext', -⟩ := hfirst r' hr'
    rw [h.renamed.name_eq hW, h.name_self] at hext'
    refine ⟨fun hmem => ?_, fun hmem => hW.2 ?_⟩
    · exact (hext'.trans h.nearest.ext).not_suffix (hxup r' hmem).2
    · obtain ⟨l', hl'⟩ := hy.of_mem hmem
      exact ⟨hW.1, l', hl'⟩
  have hro : h.after.owner r = o := by
    rw [howner, owner, h.item_self_outer ho]
  have hcheck : checkOwner
      (h.after.writeAll done (adoptedValues tree u o t rel)) r k = _ :=
    checkOwner_writeAll (h.sameWays.way hx) (h.sameWays.way hy) hdone hr.1.1 hro hnot
  rw [hstep, hbad]
  have hcell : h.after.isCell r = tree.isCell r := rfl
  rw [hcell] at hcheck
  have howner' : (adoptedValues tree u o t rel r).owner = k := by rw [hvalues]
  cases hrcell : tree.isCell r with
  | false =>
    rw [if_pos ⟨hrcell, hcu⟩] at hcheck
    exact .inr ⟨rfl, _, udbUpdate_error (howner'.symm ▸ hcheck)⟩
  | true =>
    rw [if_neg (by simp [hrcell])] at hcheck
    exact .inl ⟨by simp, udbUpdate_writeAll (howner'.symm ▸ hcheck)⟩

lemma keeps_outer_iff (ho : o ∉ tree.regionsOf u) :
    Keeps (finishUpdate tree u ⟨t, rel, o⟩) ↔
      (∃ r ∈ Parts.First h.after (tree.live \ tree.regionsOf u) u,
        Unadoptable tree u t r) ∨
      Graft.Clear (tree.live \ tree.regionsOf u) (tree.regionsOf u)
        h.after.name u := by
  have hsubs := h.parts.mem_newSubs_iff (h.item_self_outer ho)
  have hloop := foldlM_after h.adopt (newSubs h.after ⟨t, rel, o⟩)
    (fun done => h.after.writeAll done (adoptedValues tree u o t rel))
    (Unadoptable tree u t) (fun e => ∃ e', e = Stop.error e')
    (fun done r rest hl hgood => by
      rcases h.adoptSubregion_eq ho hl with hok | herr
      · exact hok.2
      · exact absurd herr.1 hgood)
    (fun done r rest hl hbad => by
      rcases h.adoptSubregion_eq ho hl with hok | ⟨-, e, he⟩
      · exact absurd hbad hok.1
      · exact ⟨_, ⟨e, rfl⟩, he⟩)
  rw [writeAll_nil] at hloop
  rw [h.finishUpdate_eq]
  rcases hloop with ⟨hgood, hok⟩ | ⟨⟨r, hr, hbad⟩, e, ⟨e', rfl⟩, he⟩
  · have hcanon := h.parts.canonical_iff hsubs fun r hr => by
      have hfirst := (hsubs r).1 hr
      exact h.adopted hfirst.1 hfirst.2.1 (hgood r hr)
    have hnone : ¬ ∃ r ∈ Parts.First h.after (tree.live \ tree.regionsOf u) u,
        Unadoptable tree u t r := by
      rintro ⟨r, hr, hbad⟩
      exact hgood r ((hsubs r).2 hr) hbad
    rw [hok, keeps_ok_iff, hcanon]
    exact (or_iff_right hnone).symm
  · rw [he]
    exact iff_of_true (keeps_error e') (.inl ⟨r, (hsubs r).1 hr, hbad⟩)

/-- What is found below an owner in the cell are regions of the cell. -/
theorem mem_newSubs_inner (ho : o ∈ tree.regionsOf u) (r : Uuid) :
    r ∈ newSubs h.after ⟨t, rel, o⟩ ↔
      r ∈ tree.regionsOf u ∧ r ≠ u ∧ tree.owner r = o ∧ Extends (tree.name r) t := by
  have hitem : ∀ m ∈ tree.regionsOf u, m ≠ u → h.after.item m =
      ⟨movedName tree u t m, tree.relname m, tree.owner m⟩ := by
    intro m hm hmu
    rw [h.item_owned hm.1 hmu (h.canonical.owner_mem_regionsOf hm hmu),
      if_neg (by simp [Tree.Canonical.plain_of_mem hm hmu])]
  have hrel : ∀ m ∈ tree.regionsOf u, m ≠ u → tree.owner m = o →
      (Extends (tree.relname m) rel ↔ Extends (tree.name m) t) := by
    intro m hm hmu howner
    have hplaced := h.canonical.placed hm.1
      (h.canonical.ne_root_of_plain (Tree.Canonical.plain_of_mem hm hmu))
    rw [hplaced.relname, howner, h.relname, Extends.append_right_iff]
  rw [mem_newSubs, h.parts.live]
  constructor
  · rintro ⟨hr | hr, howner, hext⟩
    · exfalso
      by_cases hroot : r = tree.root
      · have hrootItem : h.after.item tree.root = ⟨[], [], tree.root⟩ :=
          h.parts.root.item
        have hlt := hext.length_lt
        rw [hroot, relname, hrootItem] at hlt
        simp at hlt
      · have hmem := (h.parts.ordered.placed r hr hroot).nearest.mem
        rw [howner] at hmem
        exact hmem.2 ho
    · by_cases hru : r = u
      · exfalso
        rw [hru, owner, h.item_self_inner ho] at howner
        have heq : tree.owner u = o := howner
        exact h.cut.outside (heq ▸ ho)
      · rw [owner, hitem r hr hru] at howner
        rw [relname, hitem r hr hru] at hext
        exact ⟨hr, hru, howner, (hrel r hr hru howner).1 hext⟩
  · rintro ⟨hr, hru, howner, hext⟩
    refine ⟨.inr hr, ?_, ?_⟩
    · rw [owner, hitem r hr hru]
      exact howner
    · rw [relname, hitem r hr hru]
      exact (hrel r hr hru howner).2 hext

lemma keeps_inner_iff (ho : o ∈ tree.regionsOf u) :
    Keeps (finishUpdate tree u ⟨t, rel, o⟩) ↔
      (∃ m ∈ tree.regionsOf u, m ≠ u ∧ tree.owner m = o ∧ Extends (tree.name m) t) ∨
      ∀ w ∈ tree.live \ tree.regionsOf u, ¬ Extends (tree.name w) t := by
  have hsubs := h.mem_newSubs_inner ho
  have hext_iff : ∀ w ∈ tree.live \ tree.regionsOf u, Extends (tree.name w) t ↔
      Extends (h.after.name w) (h.after.name u) := by
    intro w hw
    rw [h.renamed.name_eq hw, h.name_self]
  rw [h.finishUpdate_eq]
  cases hnew : newSubs h.after ⟨t, rel, o⟩ with
  | nil =>
    have hnone : ¬ ∃ m ∈ tree.regionsOf u, m ≠ u ∧ tree.owner m = o ∧
        Extends (tree.name m) t := by
      rintro ⟨m, hm⟩
      have hmem := (hsubs m).2 hm
      simp [hnew] at hmem
    rw [or_iff_right hnone]
    refine keeps_ok_iff.trans ⟨fun hcanon w hw hext => ?_, fun hclear => ?_⟩
    · exact h.parts.not_canonical hw ((hext_iff w hw).1 hext) hcanon
    · exact h.parts.canonical_of_none fun w hw hext => hclear w hw ((hext_iff w hw).2 hext)
  | cons r rest =>
    obtain ⟨hr, hru, howner, hext⟩ := (hsubs r).1 (by simp [hnew])
    -- the region itself is in the table
    obtain ⟨k, hk, relcomps, hrel, hmax, hfind⟩ := h.exists_found (h.parts.graft.top_suffix hr)
    have hsuf := (hmax r hr (suffix_refl _)).length_le
    have hnil : relcomps = [] := by
      rw [hrel, length_append] at hsuf
      exact length_eq_zero_iff.1 (by omega)
    have hstep : h.adopt h.after r = .error (.error (.edupregion r (h.after.name r))) := by
      simp only [adoptSubregion, if_true, name] at hfind ⊢
      simp only [hfind, hnil, bind, Except.bind, if_true]
      rfl
    rw [foldlM_cons, hstep]
    exact iff_of_true (keeps_error _) (.inl ⟨r, hr, hru, howner, hext⟩)

end

end CellTarget

end Region
end Unameit
