import Unameit.Region.MoveCell

/-!
# Region.Rename — renaming a region

`setNewOwner_cases` says when a change of the name is refused and which owner is found.  From there
a plain region and a cell go different ways.  For a plain region the table of moved regions is
empty, so the search for a new owner does not end as soon as there is a region to be adopted
(`keeps_plain_iff`).  For a cell everything depends on how the renamed regions and the others fit
together.
-/

namespace Unameit
namespace Region

/-! ## What is asked of an operation -/

def Keeps (outcome : Except Stop Tree) : Prop :=
  outcome ≠ .error .endless ∧ ∀ tree, outcome = .ok tree → tree.Canonical

lemma keeps_error (e : RegionError) : Keeps (.error (.error e)) := by
  refine ⟨by simp, ?_⟩
  intro tree h
  cases h

lemma not_keeps_endless : ¬ Keeps (.error .endless) := fun h => h.1 rfl

lemma keeps_ok_iff {tree : Tree} : Keeps (.ok tree) ↔ tree.Canonical := by
  refine ⟨fun h => h.2 tree rfl, fun h => ⟨by simp, ?_⟩⟩
  intro tree' heq
  obtain rfl := Except.ok.inj heq
  exact h

variable {tree : Tree} {u o : Uuid} {t rel : Name}

/-! ## Finding the new owner -/

def Taken (tree : Tree) (u : Uuid) (t : Name) : Prop :=
  ∃ r ∈ tree.live, r ≠ u ∧ tree.name r = t

def SameCell (tree : Tree) (r r' : Uuid) : Prop := ∃ c, tree.InCell r c ∧ tree.InCell r' c

lemma taken_iff (h : tree.Canonical) : Taken tree u t ↔
    tree.udbQbe (fun r => tree.name r = t) ≠ [] ∧ tree.udbQbe (fun r => tree.name r = t) ≠ [u] := by
  have hmem : ∀ r ∈ tree.live, tree.name r = t →
      r ∈ tree.udbQbe fun r => tree.name r = t := fun r hr hname =>
    Tree.mem_udbQbe.2 ⟨hr, decide_eq_true hname⟩
  rcases udbQbe_name h t with hq | ⟨r, hr, hname, hq⟩
  · refine ⟨?_, fun hne => absurd hq hne.1⟩
    rintro ⟨r, hr, -, hname⟩
    have hr' := hmem r hr hname
    simp [hq] at hr'
  · rw [hq]
    constructor
    · rintro ⟨r', hr', hne, hname'⟩
      have hmem' := hmem r' hr' hname'
      rw [hq, List.mem_singleton] at hmem'
      subst hmem'
      simp [hne]
    · rintro ⟨-, hne⟩
      exact ⟨r, hr, fun heq => hne (by rw [heq]), hname⟩

inductive NewOwner (tree : Tree) (u : Uuid) (isCell : Bool) (event : Event) (t : Name) : Prop
  | refused (e : RegionError)
      (why : Taken tree u t ∨ ∃ o, Nearest tree.live tree.name t o ∧ isCell = false ∧
        (o = tree.root ∨ event = .update ∧ ¬ SameCell tree u o))
      (h : setNewOwner u isCell event (tree.env t) = .error (.error e))
  | found (o : Uuid) (rel : Name) (free : ¬ Taken tree u t)
      (nearest : Nearest tree.live tree.name t o) (relname : t = rel ++ tree.name o)
      (plain : isCell = false → o ≠ tree.root ∧ (event = .update → SameCell tree u o))
      (h : setNewOwner u isCell event (tree.env t) =
        .ok { tree.env t with new := ⟨t, rel, o⟩ })

lemma setNewOwner_of_taken (h : tree.Canonical) (htaken : Taken tree u t) (isCell : Bool)
    (event : Event) :
    setNewOwner u isCell event (tree.env t) = .error (.error (.edupregion u t)) := by
  have hdup := (taken_iff h).1 htaken
  exact if_pos hdup

/-- When the name is free, the outcome depends on the nearest region above it. -/
theorem setNewOwner_of_free (h : tree.Canonical) (hfree : ¬ Taken tree u t) (isCell : Bool)
    (event : Event) : setNewOwner u isCell event (tree.env t) = (do
      match ← findAncestor tree [] t with
      | some (upregion, labels) =>
        if event = .update ∧ isCell = false then
          let cell ← udbCellOf tree u
          let upcell ← udbCellOf tree upregion
          if cell ≠ upcell then throw (.error (.enewfqdncell u t))
        return { tree.env t with new := ⟨t, labels, upregion⟩ }
      | none =>
        if isCell = false then throw (.error (.erootregion u t))
        return { tree.env t with new := ⟨t, t, tree.root⟩ }) := by
  have hdup := fun hq => hfree ((taken_iff h).2 hq)
  exact if_neg hdup

lemma setNewOwner_cases (u : Uuid) (h : tree.Canonical) (ht : t ≠ []) (isCell : Bool) (event : Event)
    (hu : event = .update → u ∈ tree.live) : NewOwner tree u isCell event t := by
  by_cases htaken : Taken tree u t
  · exact .refused _ (.inl htaken) (setNewOwner_of_taken h htaken isCell event)
  have hfree := setNewOwner_of_free h htaken isCell event
  obtain ⟨o, rel, ho, hrel, hfind⟩ := findAncestor_eq h [] ht
  by_cases hroot : o = tree.root
  · rw [hfind, if_pos hroot] at hfree
    cases isCell with
    | false => exact .refused _ (.inr ⟨o, ho, rfl, .inl hroot⟩) hfree
    | true =>
      have hname : t = rel := by simpa [hroot, h.name_root] using hrel
      refine .found o rel htaken ho hrel (by simp) ?_
      rw [hfree, hroot, ← hname]
      rfl
  · rw [hfind, if_neg hroot] at hfree
    by_cases hcheck : event = .update ∧ isCell = false
    swap
    · refine .found o rel htaken ho hrel ?_ (hfree.trans (if_neg hcheck))
      exact fun hplain => ⟨hroot, fun hevent => absurd ⟨hevent, hplain⟩ hcheck⟩
    · obtain ⟨rfl, rfl⟩ := hcheck
      obtain ⟨c, hc, hcell⟩ := h.cellOf_eq (hu rfl)
      obtain ⟨c', hc', hcell'⟩ := h.cellOf_eq ho.mem
      have hsame : SameCell tree u o ↔ c = c' := by
        constructor
        · rintro ⟨d, hd, hd'⟩
          exact (hc.unique hd).trans (hd'.unique hc')
        · rintro rfl
          exact ⟨c, hc, hc'⟩
      simp only [hcell, hcell', bind, Except.bind] at hfree
      by_cases hcc : c = c'
      · refine .found o rel htaken ho hrel (fun _ => ⟨hroot, fun _ => hsame.2 hcc⟩) ?_
        rw [hfree]
        simp [hcc, pure, Except.pure]
      · refine .refused (.enewfqdncell u t)
          (.inr ⟨o, ho, rfl, .inr ⟨rfl, fun hs => hcc (hsame.1 hs)⟩⟩) ?_
        rw [hfree]
        simp [hcc, throw, throwThe, MonadExceptOf.throw]

def finishUpdate (tree : Tree) (u : Uuid) (new : Values) : Except Stop Tree := do
  let updated ← udbUpdate tree u new
  let (tree', moved) ← updateOldSubregions u (tree.isCell u) .postupdate
    { tree := updated, new := new, old := tree.item u }
  updateNewSubregions u .postupdate new tree' moved

section Update

variable (hu : u ∈ tree.live) (hroot : u ≠ tree.root) (ht : t.length ≠ 1)

include hu hroot ht in
lemma unameitUpdate_error {e : Stop}
    (h : setNewOwner u (tree.isCell u) .update (tree.env t) = .error e) :
    unameitUpdate tree u t = .error e := by
  have hmem : ¬ (u ∉ tree.items ∨ u = tree.root) := by
    simp [hu.1, hroot]
  simp only [unameitUpdate, if_neg hmem, hu.2, Bool.false_eq_true, if_false, if_neg ht,
    unameitRegionNameChange, h]
  rfl

include hu hroot ht in
lemma unameitUpdate_ok {new : Values}
    (h : setNewOwner u (tree.isCell u) .update (tree.env t) = .ok { tree.env t with new := new }) :
    unameitUpdate tree u t = finishUpdate tree u new := by
  have hmem : ¬ (u ∉ tree.items ∨ u = tree.root) := by
    simp [hu.1, hroot]
  simp only [unameitUpdate, if_neg hmem, hu.2, Bool.false_eq_true, if_false, if_neg ht,
    unameitRegionNameChange, h, finishUpdate, fetchOld, reduceCtorEq, and_false, if_false]
  cases hup : udbUpdate tree u new with
  | error e => simp [hup, Tree.env, bind, Except.bind, pure, Except.pure]
  | ok updated =>
    cases hold : updateOldSubregions u (tree.isCell u) .postupdate
        { tree := updated, new := new, old := tree.item u } with
    | error e => simp [hup, hold, Tree.env, bind, Except.bind, pure, Except.pure]
    | ok state =>
      cases hnew : updateNewSubregions u .postupdate new state.1 state.2 with
      | error e => simp [hup, hold, hnew, Tree.env, bind, Except.bind, pure, Except.pure]
      | ok tree' => simp [hup, hold, hnew, Tree.env, bind, Except.bind, pure, Except.pure]

end Update

/-! ## The new owner and the tree -/

structure Target (tree : Tree) (u o : Uuid) (t rel : Name) : Prop where
  canonical : tree.Canonical
  live : u ∈ tree.live
  ne_root : u ≠ tree.root
  fqdn : 2 ≤ t.length
  free : ¬ Taken tree u t
  nearest : Nearest tree.live tree.name t o
  relname : t = rel ++ tree.name o

def Tree.updated (tree : Tree) (u o : Uuid) (t rel : Name) : Tree := tree.setItem u ⟨t, rel, o⟩

@[simp] lemma Tree.item_updated_self : (tree.updated u o t rel).item u = ⟨t, rel, o⟩ :=
  Function.update_self ..

lemma Tree.item_updated_of_ne {r : Uuid} (h : r ≠ u) :
    (tree.updated u o t rel).item r = tree.item r :=
  Function.update_of_ne h ..

lemma Tree.live_updated : (tree.updated u o t rel).live = tree.live := rfl

/-- Regions to be adopted are found by their relative names. -/
theorem Parts.mem_newSubs_iff {after : Tree} {W K : Set Uuid} (h : Parts after W K u)
    (hitem : after.item u = ⟨t, rel, o⟩) (r : Uuid) :
    r ∈ newSubs after ⟨t, rel, o⟩ ↔ r ∈ Parts.First after W u := by
  have hu : after.name u = rel ++ after.name o := by
    have hrel := h.relname u h.graft.top
    rwa [Tree.relname, Tree.owner, hitem] at hrel
  have howner : after.owner u = o := by rw [Tree.owner, hitem]
  have hrelname : after.relname u = rel := by rw [Tree.relname, hitem]
  rw [mem_newSubs, h.live]
  constructor
  · rintro ⟨hr | hr, hro, hext⟩
    · have hroot : r ≠ after.root := by
        rintro rfl
        have hlt := hext.length_lt
        simp [Tree.relname, h.root.item] at hlt
      refine ⟨hr, ?_, hro.trans howner.symm⟩
      rw [(h.ordered.placed r hr hroot).relname, hu]
      rw [hro, Extends.append_right_iff]
      exact hext
    · exfalso
      by_cases hru : r = u
      · subst hru
        rw [hrelname] at hext
        exact hext.irrefl
      · have hmem := (h.inner r hr hru).mem
        rw [hro, ← howner] at hmem
        exact h.disjoint _ hmem h.graft.parent.mem
  · rintro ⟨hr, hext, hro⟩
    have hrow := hro.trans howner
    refine ⟨.inl hr, hrow, ?_⟩
    have hplaced := (h.ordered.placed r hr (h.ne_root_of_extends hext)).relname
    rwa [hplaced, hu, hrow, Extends.append_right_iff] at hext

/-- The regions next to the new name, in terms of names. -/
theorem Parts.mem_first_iff {after : Tree} {W K : Set Uuid} (h : Parts after W K u) (r : Uuid) :
    r ∈ Parts.First after W u ↔ r ∈ W ∧ Extends (after.name r) (after.name u) ∧
      ∀ w ∈ W, Extends (after.name r) (after.name w) →
        ¬ Extends (after.name w) (after.name u) := by
  constructor
  · rintro ⟨hr, hext, howner⟩
    refine ⟨hr, hext, fun w hw hrw hwu => ?_⟩
    have hsuf := (h.nearest hr hext).max w hw hrw
    rw [howner] at hsuf
    exact (hwu.trans h.graft.parent.ext).not_suffix hsuf
  · rintro ⟨hr, hext, hbetween⟩
    refine ⟨hr, hext, ?_⟩
    by_contra hne
    have hnear := h.nearest hr hext
    exact hbetween _ hnear.mem hnear.ext (h.graft.extends_of_ne h.ordered.inj hext hnear hne)

/-! ## A plain region -/

section Plain

variable {c : Uuid} {lo : List Uuid}

def Tree.plainMoved (tree : Tree) (u o : Uuid) (t rel : Name) : Tree :=
  (tree.updated u o t rel).writeAll (plainSubs (tree.updated u o t rel) u)
    (plainValues (tree.updated u o t rel) (tree.item u))

structure PlainTarget (tree : Tree) (u o : Uuid) (t rel : Name) (lo : List Uuid) (c : Uuid) : Prop
    extends Target tree u o t rel where
  plain : tree.isCell u = false
  inCell : tree.InCell u c
  way : Way tree o lo c
  not_mem : u ∉ o :: lo

namespace PlainTarget

variable (h : PlainTarget tree u o t rel lo c)

include h

lemma way_updated : Way (tree.updated u o t rel) u (o :: lo) c := by
  have howner : (tree.updated u o t rel).owner u = o := by simp [Tree.owner]
  have hway : Way (tree.updated u o t rel) o lo c := by
    refine h.way.congr h.way.items (fun _ _ => rfl) fun y hy _ => ?_
    have hne : y ≠ u := fun heq => h.not_mem (heq ▸ hy)
    rw [Tree.owner, Tree.item_updated_of_ne hne, Tree.owner]
  have hplain : (tree.updated u o t rel).isCell u = false := h.plain
  simpa only [howner] using Way.plain hplain h.live.1 (howner.symm ▸ hway)

/-- The old owner is in the same cell. -/
theorem exists_way_owner : ∃ ly, Way (tree.updated u o t rel) (tree.owner u) ly c ∧
    ∀ y ∈ tree.owner u :: ly, tree.name y <:+ tree.name u := by
  obtain ⟨lu, hu⟩ := h.inCell
  have hup := h.canonical.way_up h.live hu
  obtain ⟨ly, rfl, hy⟩ := hu.tail h.plain
  refine ⟨ly, ?_, fun y hmem => (hup y (List.mem_cons_of_mem _ hmem)).2⟩
  refine hy.congr hy.items (fun _ _ => rfl) fun y hmem _ => ?_
  have hne : y ≠ u := by
    rintro rfl
    exact hu.above.self_not_mem hmem
  rw [Tree.owner, Tree.item_updated_of_ne hne, Tree.owner]

/-- The old subregions are those that the region owned. -/
theorem mem_plainSubs_iff {r : Uuid} :
    r ∈ plainSubs (tree.updated u o t rel) u ↔ r ∈ tree.live ∧ r ≠ u ∧ tree.owner r = u := by
  have hmem : r ∈ plainSubs (tree.updated u o t rel) u ↔
      r ∈ tree.live ∧ (tree.updated u o t rel).owner r = u := by
    simp [plainSubs, Tree.mem_udbQbe, Tree.live_updated]
  rw [hmem]
  by_cases hru : r = u
  · subst hru
    have hne : o ≠ r := fun heq => h.not_mem (heq ▸ List.mem_cons_self)
    simp [Tree.owner, hne]
  · rw [Tree.owner, Tree.item_updated_of_ne hru]
    simp [hru, Tree.owner]

lemma sub_not_mem_way {r : Uuid} (hr : r ∈ tree.live) (hru : r ≠ u)
    (howner : tree.owner r = u) : r ∉ u :: o :: lo := by
  have hext := (h.canonical.extends_of_owner hr h.ne_root howner).2
  intro hmem
  have hmem' := (List.mem_cons.1 hmem).resolve_left hru
  cases hcell : tree.isCell r with
  | false =>
    have hu := h.way.owner_mem hmem' hcell
    rw [howner] at hu
    exact h.not_mem hu
  | true =>
    -- a cell on the way is the cell of the region, so it is above it
    obtain ⟨l', hr'⟩ := h.way.of_mem hmem'
    have hrc : r = c := (Tree.inCell_cell_iff hr.1 hcell).1 ⟨l', hr'⟩
    have hmemu : u ∈ tree.regionsOf r := ⟨h.live, hrc ▸ h.inCell⟩
    exact hext.not_suffix (h.canonical.suffix_of_inCell hmemu)

abbrev after (_ : PlainTarget tree u o t rel lo c) : Tree := tree.plainMoved u o t rel

lemma item_plainMoved : h.after.item u = ⟨t, rel, o⟩ := by
  have hself : u ∉ plainSubs (tree.updated u o t rel) u := fun hmem =>
    (h.mem_plainSubs_iff.1 hmem).2.1 rfl
  rw [after, Tree.plainMoved, Tree.item_writeAll_of_not_mem hself, Tree.item_updated_self]

lemma renamed : Renamed tree h.after {u} u := by
  have hitem := h.item_plainMoved
  have hou : o ∉ ({u} : Set Uuid) := fun heq => h.not_mem (by simp [Set.mem_singleton_iff.1 heq])
  refine { root := rfl, kept := ?_, orphan := ?_, items := rfl, deleted := rfl, isCell := rfl,
           inner := ?_, fqdn := ?_, fresh := ?_, nearest := ?_, relname := ?_ }
  · intro r hr howner
    have hnot : r ∉ plainSubs (tree.updated u o t rel) u := fun hmem =>
      howner (h.mem_plainSubs_iff.1 hmem).2.2
    rw [after, Tree.plainMoved, Tree.item_writeAll_of_not_mem hnot, Tree.item_updated_of_ne hr.2]
  · intro r hr howner
    rw [after, Tree.plainMoved, Tree.item_writeAll_of_mem (h.mem_plainSubs_iff.2 ⟨hr.1, hr.2, howner⟩)]
    exact plainValues_eq h.canonical h.ne_root hr.1 howner (Tree.item_updated_of_ne hr.2)
  · intro k hk hku
    exact absurd hk hku
  · rw [Tree.name, hitem]
    exact h.fqdn
  · intro w hw heq
    rw [Tree.name, Tree.name, hitem] at heq
    exact h.free ⟨w, hw.1, hw.2, heq⟩
  · rw [Tree.name, Tree.owner, hitem]
    exact Cut.nearest_of_not_mem h.nearest hou
  · rw [Tree.name, Tree.owner, Tree.relname, hitem]
    exact h.relname

lemma updateOldSubregions_eq : updateOldSubregions u false .postupdate
    { tree := tree.updated u o t rel, new := ⟨t, rel, o⟩, old := tree.item u } =
      .ok (h.after, []) := by
  obtain ⟨ly, hy, hyname⟩ := h.exists_way_owner
  have hnodup : (tree.updated u o t rel).items.Nodup := h.canonical.nodup
  refine updateOldSubregions_plain hnodup h.way_updated hy fun r hr howner => ?_
  obtain ⟨hr, hru, howner⟩ := h.mem_plainSubs_iff.1
    (Tree.mem_udbQbe.2 ⟨hr, decide_eq_true howner⟩)
  refine ⟨h.sub_not_mem_way hr hru howner, fun hmem => ?_⟩
  exact (h.canonical.extends_of_owner hr h.ne_root howner).2.not_suffix (hyname r hmem)

lemma finishUpdate_eq : finishUpdate tree u ⟨t, rel, o⟩ =
    (newSubs h.after ⟨t, rel, o⟩).foldlM
      (adoptSubregion h.after [] u .postupdate ⟨t, rel, o⟩) h.after := by
  obtain ⟨lu, hu⟩ := h.inCell
  have hcheck : checkOwner tree u o = _ := checkOwner_plain h.plain hu h.way h.not_mem
  have hupdate : udbUpdate tree u ⟨t, rel, o⟩ = .ok (tree.updated u o t rel) := by
    simp only [udbUpdate, hcheck]
    rfl
  simp only [finishUpdate, hupdate, h.plain, h.updateOldSubregions_eq, bind, Except.bind]
  rfl

/-- A plain region can be renamed if no region has to be adopted; otherwise the command does not
come to its end. -/
theorem keeps_iff : Keeps (finishUpdate tree u ⟨t, rel, o⟩) ↔
    ∀ w ∈ tree.live, w ≠ u → ¬ Extends (tree.name w) t := by
  have hparts := h.renamed.parts h.canonical (h.canonical.cut_self h.live h.ne_root) h.ne_root
  have hname : h.after.name u = t := by rw [Tree.name, h.item_plainMoved]
  have hsubs := hparts.mem_newSubs_iff h.item_plainMoved
  have hext_iff : ∀ w ∈ tree.live \ {u}, Extends (tree.name w) t ↔
      Extends (h.after.name w) (h.after.name u) := by
    intro w hw
    rw [h.renamed.name_eq hw, hname]
  rw [h.finishUpdate_eq]
  cases hnew : newSubs h.after ⟨t, rel, o⟩ with
  | nil =>
    have hnone : ∀ w ∈ tree.live \ {u}, ¬ Extends (tree.name w) t := by
      intro w hw hext
      obtain ⟨f, hf, hfu, hfp, -⟩ := hparts.graft.exists_first hparts.ordered.inj
        (fun r hr hru => ⟨_, hparts.nearest hr hru⟩) hw ((hext_iff w hw).1 hext)
      have hfirst : f ∈ Parts.First h.after (tree.live \ {u}) u :=
        ⟨hf, hfu, (hfp.unique hparts.ordered.inj (hparts.nearest hf hfu)).symm⟩
      have hmem := (hsubs f).2 hfirst
      simp [hnew] at hmem
    have hcanon : h.after.Canonical := by
      exact hparts.canonical_of_none fun w hw hext => hnone w hw ((hext_iff w hw).2 hext)
    exact iff_of_true (keeps_ok_iff.2 hcanon) fun w hw hwu => hnone w ⟨hw, hwu⟩
  | cons r rest =>
    have hr := (hsubs r).1 (by simp [hnew])
    have hendless : adoptSubregion h.after [] u .postupdate ⟨t, rel, o⟩
        h.after r = .error .endless := by
      simp [adoptSubregion, findMoved_nil, bind, Except.bind]
    rw [List.foldlM_cons, hendless]
    exact iff_of_false not_keeps_endless fun hnone =>
      hnone r hr.1.1 hr.1.2 ((hext_iff r hr.1).2 hr.2.1)

end PlainTarget

/-- When the new owner is below the region itself the update is refused. -/
theorem finishUpdate_loop (hplain : tree.isCell u = false) (hu : tree.InCell u c)
    (hway : Way tree o lo c) (hmem : u ∈ o :: lo) :
    finishUpdate tree u ⟨t, rel, o⟩ = .error (.error (.ecellmove u o)) := by
  obtain ⟨lu, hu⟩ := hu
  have hupdate : udbUpdate tree u ⟨t, rel, o⟩ = .error (.error (.ecellmove u o)) :=
    udbUpdate_error (checkOwner_loop hplain hu hway hmem)
  simp only [finishUpdate, hupdate]
  rfl

end Plain

/-- The renaming of a plain region to `t` below `o`. -/
theorem keeps_plain_iff (h : Target tree u o t rel) (hplain : tree.isCell u = false)
    (hsame : SameCell tree u o) : Keeps (finishUpdate tree u ⟨t, rel, o⟩) ↔
      Extends t (tree.name u) ∨ ∀ w ∈ tree.live, w ≠ u → ¬ Extends (tree.name w) t := by
  obtain ⟨c, hu, lo, hway⟩ := hsame
  by_cases hmem : u ∈ o :: lo
  · have hext : Extends t (tree.name u) :=
      h.nearest.ext.trans_suffix (h.canonical.way_up h.nearest.mem hway u hmem).2
    rw [finishUpdate_loop hplain hu hway hmem]
    exact iff_of_true (keeps_error _) (.inl hext)
  · have hext : ¬ Extends t (tree.name u) := fun hext => hmem
      (h.canonical.mem_way_of_suffix h.nearest.mem hway h.live hu
        (h.nearest.max u h.live hext))
    have hplainTarget : PlainTarget tree u o t rel lo c :=
      { h with plain := hplain, inCell := hu, way := hway, not_mem := hmem }
    rw [hplainTarget.keeps_iff]
    simp [hext]

end Region
end Unameit
