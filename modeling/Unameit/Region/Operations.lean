import Unameit.Region.RenameCell

/-!
# Region.Operations — which changes keep the tree canonical

Creating and deleting a region always keeps the tree canonical, or is refused.  Renaming does so
under a condition on the tree before (`Operation.Safe`), and `run_keeps_iff` says that the condition
is exactly what is needed.
-/

namespace Unameit
namespace Region

open List
open Region.Tree

variable {values : Values} {r c : Uuid}

variable {tree : Tree} {u o : Uuid} {t rel : Name}

/-! ## Creating a region -/

def Tree.created (tree : Tree) (u : Uuid) (isCell : Bool) (values : Values) : Tree :=
  { tree with
    items := u :: tree.items
    deleted := Function.update tree.deleted u false
    isCell := Function.update tree.isCell u isCell
    item := Function.update tree.item u values }

section Create

variable {isCell : Bool}

lemma Tree.item_created_self : (tree.created u isCell values).item u = values :=
  Function.update_self ..

lemma Tree.item_created_of_ne (h : r ≠ u) : (tree.created u isCell values).item r = tree.item r :=
  Function.update_of_ne h ..

lemma Tree.live_created (hu : u ∉ tree.items) :
    (tree.created u isCell values).live = tree.live ∪ {u} := by
  ext r
  by_cases hr : r = u
  · subst hr
    simp [live, created]
  · simp [live, created, hr]

lemma ne_of_live (hu : u ∉ tree.items) (hr : r ∈ tree.live) : r ≠ u := by
  rintro rfl
  exact hu hr.1

lemma Way.created (hu : u ∉ tree.items) {x : Uuid} {l : List Uuid} (h : Way tree x l c) :
    Way (tree.created u isCell values) x l c := by
  have hne : ∀ y ∈ x :: l, y ≠ u := fun y hy heq => hu (heq ▸ h.items y hy)
  refine h.congr (fun y hy => mem_cons_of_mem _ (h.items y hy)) (fun y hy => ?_)
    fun y hy _ => ?_
  · exact Function.update_of_ne (hne y hy) ..
  · rw [Tree.owner, Tree.item_created_of_ne (hne y hy), Tree.owner]

lemma parts_created (h : tree.Canonical) (hu : u ∉ tree.items) (ht : 2 ≤ t.length)
    (hfree : ¬ Taken tree u t) (hnear : Nearest tree.live tree.name t o)
    (hrel : t = rel ++ tree.name o) :
    Parts (tree.created u isCell ⟨t, rel, o⟩) tree.live {u} u := by
  have hname : ∀ w ∈ tree.live, (tree.created u isCell ⟨t, rel, o⟩).name w = tree.name w := by
    intro w hw
    rw [Tree.name, Tree.item_created_of_ne (ne_of_live hu hw), Tree.name]
  have hself : (tree.created u isCell ⟨t, rel, o⟩).item u = ⟨t, rel, o⟩ := Tree.item_created_self
  have hroot : tree.root ≠ u := ne_of_live hu h.root.live
  refine { live := Tree.live_created hu, disjoint := ?_, nodup := nodup_cons.2 ⟨hu, h.nodup⟩,
           root := ?_, ordered := ?_, graft := ?_, inj := ?_, fqdn := ?_, inner := ?_,
           relname := ?_ }
  · rintro k rfl hk
    exact hu hk.1
  · refine ⟨?_, ?_, ?_⟩
    · rw [Tree.live_created hu]
      exact .inl h.root.live
    · exact (Function.update_of_ne hroot ..).trans h.root.isCell
    · exact (Tree.item_created_of_ne hroot).trans h.root.item
  · exact h.ordered.congr rfl fun r hr => Tree.item_created_of_ne (ne_of_live hu hr)
  · refine ⟨rfl, fun k hk hku => absurd hk hku, ?_, ?_⟩
    · rw [Tree.name, Tree.owner, hself]
      exact hnear.congr hname
    · intro w hw heq
      rw [hname w hw, Tree.name, Tree.name, hself] at heq
      exact hfree ⟨w, hw, ne_of_live hu hw, heq⟩
  · rintro a rfl b rfl -
    rfl
  · rintro k rfl
    rw [Tree.name, hself]
    exact ht
  · exact fun k hk hku => absurd hk hku
  · rintro k rfl
    rw [Tree.name, Tree.relname, Tree.owner, hself]
    exact hrel.trans (by rw [hname o hnear.mem])

/-- The cell of the new region: itself, or that of its owner. -/
theorem exists_way_created (isCell : Bool) (t rel : Name) {lx : List Uuid} (hu : u ∉ tree.items)
    (hx : Way tree o lx c) :
    ∃ ly c', Way (tree.created u isCell ⟨t, rel, o⟩) u ly c' ∧
      ∀ y ∈ u :: ly, y = u ∨ y ∈ o :: lx := by
  have hmem : u ∈ (tree.created u isCell ⟨t, rel, o⟩).items := mem_cons_self
  cases hcell : isCell with
  | true =>
    have hself : (tree.created u true ⟨t, rel, o⟩).isCell u = true := Function.update_self ..
    exact ⟨[], u, .cell hself hmem, by simp⟩
  | false =>
    have hself : (tree.created u false ⟨t, rel, o⟩).isCell u = false := Function.update_self ..
    have howner : (tree.created u false ⟨t, rel, o⟩).owner u = o := by
      rw [Tree.owner, Tree.item_created_self]
    have hway := Way.plain hself hmem (howner.symm ▸ hx.created hu)
    rw [howner] at hway
    exact ⟨o :: lx, c, hway, by simp⟩

lemma keeps_created (h : tree.Canonical) (hu : u ∉ tree.items) (ht : 2 ≤ t.length)
    (hfree : ¬ Taken tree u t) (hnear : Nearest tree.live tree.name t o)
    (hrel : t = rel ++ tree.name o) :
    Keeps (updateNewSubregions u .postcreate ⟨t, rel, o⟩
      (tree.created u isCell ⟨t, rel, o⟩) []) := by
  have hparts : Parts (tree.created u isCell ⟨t, rel, o⟩) tree.live {u} u :=
    parts_created h hu ht hfree hnear hrel
  have hname : (tree.created u isCell ⟨t, rel, o⟩).name u = t := by
    rw [Tree.name, Tree.item_created_self]
  have hsubs := hparts.mem_newSubs_iff Tree.item_created_self
  obtain ⟨lx, c, hx, hxup⟩ := h.exists_way hnear.mem
  obtain ⟨ly, c', hy, hyup⟩ := exists_way_created isCell t rel hu hx
  have hapart : ∀ r ∈ newSubs (tree.created u isCell ⟨t, rel, o⟩) ⟨t, rel, o⟩,
      r ∉ o :: lx ∧ r ∉ u :: ly := by
    intro r hr
    obtain ⟨hlive, hext, -⟩ := (hsubs r).1 hr
    have hru := ne_of_live hu hlive
    rw [hname, Tree.name, Tree.item_created_of_ne hru] at hext
    have hnot : r ∉ o :: lx := fun hmem =>
      (hext.trans hnear.ext).not_suffix (hxup r hmem).2
    exact ⟨hnot, fun hmem => (hyup r hmem).elim hru hnot⟩
  rcases updateNewSubregions_create hparts.nodup (hx.created hu) hy hapart with hok | ⟨e, he⟩
  · rw [hok, keeps_ok_iff, hparts.canonical_iff hsubs fun r hr => ?_]
    · rintro w - hext k rfl hsuf
      exact hext.not_suffix hsuf
    · obtain ⟨hlive, hext, howner⟩ := (hsubs r).1 hr
      refine ⟨rfl, ⟨rfl, hext, ?_⟩, ?_⟩
      · rintro w rfl -
        exact suffix_refl _
      · have hplaced := (hparts.ordered.placed r hlive (hparts.ne_root_of_extends hext)).relname
        have hu' := hparts.relname u rfl
        have hsuf := (mem_newSubs.1 hr).2.2.1
        rw [howner] at hplaced
        have hrelname : (tree.created u isCell ⟨t, rel, o⟩).relname u = rel := by
          rw [Tree.relname, Tree.item_created_self]
        rw [hrelname] at hu'
        rw [newValues, hu', ← append_assoc, trim_append_of_suffix hsuf, ← hplaced]
  · rw [he]
    exact keeps_error e

lemma unameitCreate_error {e : Stop} (ht : t.length ≠ 1)
    (h : setNewOwner u isCell .create (tree.env t) = .error e) :
    unameitCreate tree u isCell t = .error e := by
  simp only [unameitCreate, if_neg ht, unameitRegionNameChange, h]
  rfl

lemma unameitCreate_used {env : Env} (ht : t.length ≠ 1)
    (h : setNewOwner u isCell .create (tree.env t) = .ok env) (hu : u ∈ tree.items) :
    unameitCreate tree u isCell t = .error (.error (.eusedUuid u)) := by
  simp only [unameitCreate, if_neg ht, unameitRegionNameChange, h, if_pos hu]
  rfl

lemma unameitCreate_ok {new : Values} (ht : t.length ≠ 1)
    (h : setNewOwner u isCell .create (tree.env t) = .ok { tree.env t with new := new })
    (hu : u ∉ tree.items) : unameitCreate tree u isCell t =
      updateNewSubregions u .postcreate new (tree.created u isCell new) [] := by
  have hbody : unameitCreate tree u isCell t =
      (updateNewSubregions u .postcreate new (tree.created u isCell new) [] >>= fun tree' =>
        pure ({ tree.env t with tree := tree', new := new } : Env)) >>= fun env =>
          pure env.tree := by
    simp only [unameitCreate, if_neg ht, unameitRegionNameChange, h, if_neg hu]
    rfl
  rw [hbody, bind_assoc]
  simp only [pure_bind, bind_pure]

/-- The name of the root cell is taken, or the root cell itself would be created once more. -/
theorem keeps_create_root (h : tree.Canonical) : Keeps (unameitCreate tree u isCell []) := by
  by_cases htaken : Taken tree u []
  · rw [unameitCreate_error (by simp) (setNewOwner_of_taken h htaken isCell .create)]
    exact keeps_error _
  have hroot : tree.root = u := by
    by_contra hne
    exact htaken ⟨tree.root, h.root.live, hne, h.name_root⟩
  have hfree := setNewOwner_of_free h htaken isCell .create
  cases isCell with
  | false =>
    rw [unameitCreate_error (by simp) hfree]
    exact keeps_error _
  | true =>
    rw [unameitCreate_used (by simp) hfree (hroot ▸ h.root.live.1)]
    exact keeps_error _

/-- A region is created where it belongs, or not at all. -/
theorem keeps_create (h : tree.Canonical) : Keeps (unameitCreate tree u isCell t) := by
  by_cases ht : t.length = 1
  · have herr : unameitCreate tree u isCell t = .error (.error (.enotfqdn u t)) := by
      simp only [unameitCreate, if_pos ht]
      rfl
    rw [herr]
    exact keeps_error _
  by_cases hnil : t = []
  · rw [hnil]
    exact keeps_create_root h
  have hlen : 2 ≤ t.length := by
    have hpos := length_pos_iff.2 hnil
    omega
  cases setNewOwner_cases u h hnil isCell .create nofun with
  | refused e _ herr =>
    rw [unameitCreate_error ht herr]
    exact keeps_error e
  | found o rel hfree hnear hrel _ hok =>
    by_cases hu : u ∈ tree.items
    · rw [unameitCreate_used ht hok hu]
      exact keeps_error _
    · rw [unameitCreate_ok ht hok hu]
      exact keeps_created h hu hlen hfree hnear hrel

end Create

/-! ## Deleting a region -/

section Delete

def Tree.without (tree : Tree) (u : Uuid) : Tree :=
  { tree with deleted := Function.update tree.deleted u true }

lemma Tree.live_without : (tree.without u).live = tree.live \ {u} := by
  ext r
  by_cases hr : r = u
  · subst hr
    simp [live, without]
  · simp [live, without, hr]

lemma sameWays_without : SameWays tree (tree.without u) := ⟨rfl, rfl, fun _ _ => rfl⟩

/-- When its subregions have gone to the owner, the tree is canonical without the region. -/
theorem canonical_without {after : Tree} (h : tree.Canonical) (hu : u ∈ tree.live)
    (hroot : u ≠ tree.root) (hre : Rearranged tree after {u} u) (hitems : after.items = tree.items)
    (hcell : after.isCell = tree.isCell) (hlive : after.live = tree.live \ {u}) :
    after.Canonical := by
  have hrootW : tree.root ∈ tree.live \ {u} := ⟨h.root.live, fun heq => hroot heq.symm⟩
  have howner : tree.owner tree.root ∉ ({u} : Set Uuid) := by
    rw [h.owner_root]
    exact hrootW.2
  refine ⟨hitems ▸ h.nodup, ⟨?_, ?_, ?_⟩, ?_⟩
  · rw [hre.root, hlive]
    exact hrootW
  · rw [hre.root, hcell]
    exact h.root.isCell
  · rw [hre.root, hre.kept _ hrootW howner, h.root.item]
  · rw [hlive]
    exact hre.ordered h (h.cut_self hu hroot) hroot

lemma rearranged_plain (h : tree.Canonical) (hroot : u ≠ tree.root) :
    Rearranged tree ((tree.without u).writeAll (plainSubs (tree.without u) u)
      (plainValues (tree.without u) (tree.item u))) {u} u := by
  have hmem : ∀ r ∈ tree.live \ {u},
      (r ∈ plainSubs (tree.without u) u ↔ tree.owner r ∈ ({u} : Set Uuid)) := by
    intro r hr
    rw [plainSubs, Tree.mem_udbQbe, Tree.live_without, decide_eq_true_iff]
    exact and_iff_right hr
  refine ⟨rfl, fun r hr howner => ?_, fun r hr howner => ?_⟩
  · exact Tree.item_writeAll_of_not_mem fun hsub => howner ((hmem r hr).1 hsub)
  · rw [Tree.item_writeAll_of_mem ((hmem r hr).2 howner)]
    exact plainValues_eq h hroot hr.1 howner rfl

lemma updateOldSubregions_without_plain (h : tree.Canonical) (hu : u ∈ tree.live)
    (hroot : u ≠ tree.root) (hplain : tree.isCell u = false) (new : Values) :
    updateOldSubregions u false .postdelete
        { tree := tree.without u, new := new, old := tree.item u } =
      .ok ((tree.without u).writeAll (plainSubs (tree.without u) u)
        (plainValues (tree.without u) (tree.item u)), []) := by
  obtain ⟨lu, c, hway, hup⟩ := h.exists_way hu
  obtain ⟨ly, rfl, hy⟩ := hway.tail hplain
  have hnodup : (tree.without u).items.Nodup := h.nodup
  refine updateOldSubregions_plain hnodup (sameWays_without.way hway) (sameWays_without.way hy) ?_
  intro r hr howner
  rw [Tree.live_without] at hr
  have hext := (h.extends_of_owner hr.1 hroot howner).2
  refine ⟨fun hmem => hext.not_suffix (hup r hmem).2, fun hmem => ?_⟩
  exact hext.not_suffix (hup r (mem_cons_of_mem _ hmem)).2

/-- A cell without plain subregions is the only region in it. -/
theorem regionsOf_eq_singleton (h : tree.Canonical) (hu : u ∈ tree.live)
    (hcell : tree.isCell u = true)
    (hsubs : ∀ r ∈ tree.live, tree.isCell r = false → tree.owner r ≠ u) :
    tree.regionsOf u = {u} := by
  refine Set.Subset.antisymm ?_ (Set.singleton_subset_iff.2
    ⟨hu, (Tree.inCell_cell_iff hu.1 hcell).2 rfl⟩)
  intro k hk
  induction hn : (tree.name k).length using Nat.strongRecOn generalizing k with
  | _ n ih =>
    by_contra hku
    have hplain := Tree.Canonical.plain_of_mem hk hku
    have howner := h.owner_mem_regionsOf hk hku
    have hext := (h.placed hk.1 (h.ne_root_of_plain hplain)).nearest.ext
    exact hsubs k hk.1 hplain (ih _ (hn ▸ hext.length_lt) howner rfl)

lemma rearranged_cell (h : tree.Canonical) (hroot : u ≠ tree.root) (hK : tree.regionsOf u = {u})
    (hsubs : ∀ r ∈ tree.live, tree.isCell r = false → tree.owner r ≠ u) (new : Values) :
    Rearranged tree ((tree.without u).writeAll (cellSubs (tree.without u) (tree.item u))
      (movedValues tree (tree.without u) u .postdelete (tree.item u) new)) {u} u := by
  refine ⟨rfl, fun r hr howner => ?_, fun r hr howner => ?_⟩
  · by_cases hsub : r ∈ cellSubs (tree.without u) (tree.item u)
    · have howner' : (tree.without u).owner r ∉ tree.regionsOf u := hK ▸ howner
      rw [Tree.item_writeAll_of_mem hsub, movedValues, if_neg howner']
      rfl
    · exact Tree.item_writeAll_of_not_mem hsub
  · have hext := (h.extends_of_owner hr.1 hroot howner).2
    have howner' : (tree.without u).owner r ∈ tree.regionsOf u := hK ▸ howner
    have hcell : tree.isCell r = true := by
      by_contra hcell
      exact hsubs r hr.1 (by simpa using hcell) howner
    have hsub : r ∈ cellSubs (tree.without u) (tree.item u) := by
      rw [mem_cellSubs, Tree.live_without]
      exact ⟨hr, hext⟩
    rw [Tree.item_writeAll_of_mem hsub, movedValues, if_pos howner', if_pos hcell]
    rfl

lemma updateOldSubregions_without_cell (u : Uuid) (h : tree.Canonical) (new : Values) :
    updateOldSubregions u true .postdelete
        { tree := tree.without u, new := new, old := tree.item u } =
      .ok ((tree.without u).writeAll (cellSubs (tree.without u) (tree.item u))
        (movedValues tree (tree.without u) u .postdelete (tree.item u) new),
        movedTable tree (tree.without u) u .postdelete (tree.item u) new
          (cellSubs (tree.without u) (tree.item u))) := by
  refine updateOldSubregions_cell h sameWays_without ?_ ?_
  · rw [Tree.live_without]
    exact Set.sdiff_subset
  · intro r hr
    rw [Tree.live_without] at hr
    by_cases hroot : r = tree.root
    · rw [hroot]
      exact h.owner_root.symm ▸ h.root.live
    · exact h.owner_live hr.1 hroot

lemma unameitDelete_of_old {state : Tree × Moved} (hu : u ∈ tree.live) (hroot : u ≠ tree.root)
    (hfetch : fetchOld u (tree.isCell u) .delete (tree.env []) =
      .ok { tree.env [] with old := tree.item u })
    (hold : updateOldSubregions u (tree.isCell u) .postdelete
      { tree := tree.without u, new := (tree.env []).new, old := tree.item u } = .ok state) :
    unameitDelete tree u = .ok state.1 := by
  have hmem : ¬ (u ∉ tree.items ∨ u = tree.root) := by
    simp [hu.1, hroot]
  have hbody : unameitDelete tree u =
      (updateOldSubregions u (tree.isCell u) .postdelete
          { tree := tree.without u, new := (tree.env []).new, old := tree.item u } >>= fun state =>
        pure ({ tree.env [] with tree := state.1, old := tree.item u } : Env)) >>= fun env =>
          pure env.tree := by
    simp only [unameitDelete, if_neg hmem, hu.2, Bool.false_eq_true, if_false,
      unameitRegionNameChange, hfetch]
    rfl
  rw [hbody, hold]
  rfl

/-- A region is deleted and its subregions go to its owner, or it is not deleted. -/
theorem keeps_delete (h : tree.Canonical) : Keeps (unameitDelete tree u) := by
  by_cases hmem : u ∉ tree.items ∨ u = tree.root
  · have herr : unameitDelete tree u = .error (.error (.eperm u)) := by
      simp only [unameitDelete, if_pos hmem]
      rfl
    rw [herr]
    exact keeps_error _
  obtain ⟨hitems, hroot⟩ := not_or.1 hmem
  cases hdeleted : tree.deleted u with
  | true =>
    have hsame : unameitDelete tree u = .ok tree := by
      simp only [unameitDelete, if_neg hmem, hdeleted, if_true]
      rfl
    rw [hsame, keeps_ok_iff]
    exact h
  | false =>
    have hu : u ∈ tree.live := ⟨not_not.1 hitems, hdeleted⟩
    have hlive : (tree.without u).live = tree.live \ {u} := Tree.live_without
    cases hcell : tree.isCell u with
    | false =>
      have hfetch : fetchOld u (tree.isCell u) .delete (tree.env []) =
          .ok { tree.env [] with old := tree.item u } := by
        simp only [fetchOld, hcell, Bool.false_eq_true, false_and, if_false]
        rfl
      have hold := updateOldSubregions_without_plain h hu hroot hcell (tree.env []).new
      rw [unameitDelete_of_old hu hroot hfetch (hcell.symm ▸ hold), keeps_ok_iff]
      exact canonical_without h hu hroot (rearranged_plain h hroot) rfl rfl hlive
    | true =>
      by_cases hsubs : tree.udbQbe (fun r => !tree.isCell r && tree.owner r = u) = []
      · have hnone : ∀ r ∈ tree.live, tree.isCell r = false → tree.owner r ≠ u := by
          intro r hr hplain howner
          have hsub : r ∈ tree.udbQbe fun r => !tree.isCell r && tree.owner r = u :=
            Tree.mem_udbQbe.2 ⟨hr, by simp [hplain, howner]⟩
          simp [hsubs] at hsub
        have hfetch : fetchOld u (tree.isCell u) .delete (tree.env []) =
            .ok { tree.env [] with old := tree.item u } := by
          rw [hcell]
          exact if_neg (not_not.2 hsubs)
        have hold := updateOldSubregions_without_cell u h (tree.env []).new
        rw [unameitDelete_of_old hu hroot hfetch (hcell.symm ▸ hold), keeps_ok_iff]
        exact canonical_without h hu hroot (rearranged_cell h hroot
          (regionsOf_eq_singleton h hu hcell hnone) hnone _) rfl rfl hlive
      · have herr : unameitDelete tree u = .error (.error (.erefintegrity
            ((tree.udbQbe fun r => !tree.isCell r && tree.owner r = u).take 10) u)) := by
          have hfetch : fetchOld u (tree.isCell u) .delete (tree.env []) =
              .error (.error (.erefintegrity
                ((tree.udbQbe fun r => !tree.isCell r && tree.owner r = u).take 10) u)) := by
            rw [hcell]
            exact if_pos hsubs
          simp only [unameitDelete, if_neg hmem, hdeleted, Bool.false_eq_true, if_false,
            unameitRegionNameChange, hfetch]
          rfl
        rw [herr]
        exact keeps_error _

end Delete

/-! ## Renaming a region -/

/-- A plain region: the change is refused because of the cell or because the new name is below the
region itself, or there is no region below the new name. -/
def SafePlain (tree : Tree) (u : Uuid) (t : Name) (o : Uuid) : Prop :=
  o = tree.root ∨ ¬ SameCell tree u o ∨ Extends t (tree.name u) ∨
    ∀ w ∈ tree.live, w ≠ u → ¬ Extends (tree.name w) t

/-- A cell with the new owner in another cell: one of the regions next to the new name is plain or
has the new name of a moved region, so that the change is refused, or no region below the new name
is at or above the new name of a moved region. -/
def SafeOuter (tree : Tree) (u : Uuid) (t : Name) : Prop :=
  (∃ r ∈ tree.live \ tree.regionsOf u, Extends (tree.name r) t ∧
    (∀ w ∈ tree.live \ tree.regionsOf u, Extends (tree.name r) (tree.name w) →
      ¬ Extends (tree.name w) t) ∧
    (tree.isCell r = false ∨ ∃ k ∈ tree.regionsOf u, movedName tree u t k = tree.name r)) ∨
  ∀ w ∈ tree.live \ tree.regionsOf u, Extends (tree.name w) t →
    ∀ k ∈ tree.regionsOf u, ¬ tree.name w <:+ movedName tree u t k

/-- A cell with the new owner in it: the owner has a region below the new name, so that the change
is refused, or there is no other region below the new name. -/
def SafeInner (tree : Tree) (u : Uuid) (t : Name) (o : Uuid) : Prop :=
  (∃ m ∈ tree.regionsOf u, m ≠ u ∧ tree.owner m = o ∧ Extends (tree.name m) t) ∨
    ∀ w ∈ tree.live \ tree.regionsOf u, ¬ Extends (tree.name w) t

/-- The operations after which the tree is as it should be.  Creating and deleting are always safe,
and so is a renaming that is refused at once. -/
def Operation.Safe (tree : Tree) : Operation → Prop
  | .create _ _ _ => True
  | .delete _ => True
  | .rename u t => u ∈ tree.live → u ≠ tree.root → t.length ≠ 1 → ¬ Taken tree u t →
      ∀ o, Nearest tree.live tree.name t o →
        (tree.isCell u = false → SafePlain tree u t o) ∧
        (tree.isCell u = true → o ∉ tree.regionsOf u → SafeOuter tree u t) ∧
        (tree.isCell u = true → o ∈ tree.regionsOf u → SafeInner tree u t o)

section Rename

lemma keeps_outer_iff_safe (h : CellTarget tree u o t rel) (ho : o ∉ tree.regionsOf u) :
    Keeps (finishUpdate tree u ⟨t, rel, o⟩) ↔ SafeOuter tree u t := by
  have hname : ∀ w ∈ tree.live \ tree.regionsOf u,
      h.after.name w = tree.name w := fun w hw => h.renamed.name_eq hw
  rw [h.keeps_outer_iff ho]
  refine or_congr (exists_congr fun r => ?_) ?_
  · rw [h.parts.mem_first_iff, and_assoc, and_assoc, h.name_self]
    refine and_congr_right fun hr => ?_
    rw [hname r hr]
    refine and_congr_right fun _ => and_congr_left fun _ => ?_
    refine forall_congr' fun w => forall_congr' fun hw => ?_
    rw [hname w hw]
  · refine forall_congr' fun w => forall_congr' fun hw => ?_
    rw [hname w hw, h.name_self]
    refine forall_congr' fun _ => forall_congr' fun k => forall_congr' fun hk => ?_
    rw [h.name_moved hk]

lemma unameitUpdate_refused (h : u ∉ tree.live ∨ u = tree.root ∨ t.length = 1) :
    ∃ e, unameitUpdate tree u t = .error (.error e) := by
  by_cases hmem : u ∉ tree.items ∨ u = tree.root
  · refine ⟨.eperm u, ?_⟩
    simp only [unameitUpdate, if_pos hmem]
    rfl
  · obtain ⟨hitems, hroot⟩ := not_or.1 hmem
    cases hdeleted : tree.deleted u with
    | true =>
      refine ⟨.enxitem u, ?_⟩
      simp only [unameitUpdate, if_neg hmem, hdeleted, if_true]
      rfl
    | false =>
      have hlive : u ∈ tree.live := ⟨not_not.1 hitems, hdeleted⟩
      have ht : t.length = 1 := (h.resolve_left (not_not.2 hlive)).resolve_left hroot
      refine ⟨.enotfqdn u t, ?_⟩
      simp only [unameitUpdate, if_neg hmem, hdeleted, Bool.false_eq_true, if_false, if_pos ht]
      rfl

lemma keeps_rename_iff (h : tree.Canonical) :
    Keeps (unameitUpdate tree u t) ↔ (Operation.rename u t).Safe tree := by
  by_cases hrefused : u ∉ tree.live ∨ u = tree.root ∨ t.length = 1
  · obtain ⟨e, he⟩ := unameitUpdate_refused hrefused
    rw [he]
    refine iff_of_true (keeps_error e) fun hu hroot ht => ?_
    exact absurd hrefused (by simp [hu, hroot, ht])
  obtain ⟨hu, hroot, ht⟩ : u ∈ tree.live ∧ u ≠ tree.root ∧ t.length ≠ 1 := by
    simpa [not_or] using hrefused
  by_cases hnil : t = []
  · have htaken : Taken tree u t := ⟨tree.root, h.root.live, hroot.symm, hnil ▸ h.name_root⟩
    rw [unameitUpdate_error hu hroot ht (setNewOwner_of_taken h htaken _ _)]
    exact iff_of_true (keeps_error _) fun _ _ _ hfree => absurd htaken hfree
  have hlen : 2 ≤ t.length := by
    have hpos := length_pos_iff.2 hnil
    omega
  cases setNewOwner_cases u h hnil (tree.isCell u) .update fun _ => hu with
  | refused e why herr =>
    rw [unameitUpdate_error hu hroot ht herr]
    refine iff_of_true (keeps_error e) fun _ _ _ hfree o ho => ?_
    obtain ⟨o', ho', hplain, hwhy⟩ := why.resolve_left hfree
    obtain rfl := ho.unique h.ordered.inj ho'
    refine ⟨fun _ => ?_, ?_, ?_⟩
    · exact hwhy.imp id fun hcell => .inl hcell.2
    · simp [hplain]
    · simp [hplain]
  | found o rel hfree hnear hrel hplain hok =>
    have htarget : Target tree u o t rel := ⟨h, hu, hroot, hlen, hfree, hnear, hrel⟩
    have hsafe : (Operation.rename u t).Safe tree ↔
        (tree.isCell u = false → SafePlain tree u t o) ∧
        (tree.isCell u = true → o ∉ tree.regionsOf u → SafeOuter tree u t) ∧
        (tree.isCell u = true → o ∈ tree.regionsOf u → SafeInner tree u t o) := by
      refine ⟨fun hs => hs hu hroot ht hfree o hnear, fun hs _ _ _ _ o' ho' => ?_⟩
      rwa [← hnear.unique h.ordered.inj ho']
    rw [unameitUpdate_ok hu hroot ht hok, hsafe]
    cases hcell : tree.isCell u with
    | false =>
      obtain ⟨horoot, hsame⟩ := hplain hcell
      rw [keeps_plain_iff htarget hcell (hsame rfl)]
      simp [SafePlain, horoot, hsame rfl]
    | true =>
      have hcellTarget : CellTarget tree u o t rel := { htarget with cell := hcell }
      by_cases ho : o ∈ tree.regionsOf u
      · rw [hcellTarget.keeps_inner_iff ho]
        simp [SafeInner, ho]
      · rw [keeps_outer_iff_safe hcellTarget ho]
        simp [ho]

end Rename

/-! ## All operations -/

/-- Whatever the tree is, an operation on it comes to an end and leaves a canonical tree, if it
succeeds, exactly when it is safe. -/
theorem run_keeps_iff (h : tree.Canonical) (operation : Operation) :
    Keeps (operation.run tree) ↔ operation.Safe tree := by
  cases operation with
  | create u isCell t => exact iff_of_true (keeps_create h) trivial
  | rename u t => exact keeps_rename_iff h
  | delete u => exact iff_of_true (keeps_delete h) trivial

def smallTree : Tree where
  root := 0
  items := [0, 1, 2, 3]
  deleted := fun _ => false
  isCell := fun r => r < 2
  item := fun r =>
    if r = 1 then ⟨["b".toList, "com".toList], ["b".toList, "com".toList], 0⟩
    else if r = 2 then ⟨["x".toList, "b".toList, "com".toList], ["x".toList], 1⟩
    else if r = 3 then
      ⟨["y".toList, "z".toList, "b".toList, "com".toList], ["y".toList, "z".toList], 1⟩
    else ⟨[], [], 0⟩

lemma smallTree_live (h : r ∈ smallTree.live) : r = 0 ∨ r = 1 ∨ r = 2 ∨ r = 3 := by
  have hmem : r ∈ [0, 1, 2, 3] := h.1
  simpa using hmem

lemma smallTree_canonical : smallTree.Canonical where
  nodup := by decide
  root := ⟨⟨by decide, rfl⟩, rfl, rfl⟩
  ordered := by
    refine ⟨?_, ?_⟩
    · intro a ha b hb
      rcases smallTree_live ha with rfl | rfl | rfl | rfl <;>
        rcases smallTree_live hb with rfl | rfl | rfl | rfl <;> decide
    · intro r hr hroot
      have hnearest : Nearest smallTree.live smallTree.name (smallTree.name r)
          (smallTree.owner r) := by
        refine ⟨⟨?_, rfl⟩, ?_, ?_⟩
        · rcases smallTree_live hr with rfl | rfl | rfl | rfl <;> decide
        · rcases smallTree_live hr with rfl | rfl | rfl | rfl
          · exact absurd rfl hroot
          all_goals decide
        · intro w hw
          rcases smallTree_live hr with rfl | rfl | rfl | rfl <;>
            rcases smallTree_live hw with rfl | rfl | rfl | rfl <;> decide
      refine ⟨?_, hnearest, ?_⟩
      · rcases smallTree_live hr with rfl | rfl | rfl | rfl
        · exact absurd rfl hroot
        all_goals decide
      · rcases smallTree_live hr with rfl | rfl | rfl | rfl <;> decide

theorem run_keeps_iff_create : smallTree.Canonical ∧
    Keeps ((Operation.create 4 true ["z".toList, "b".toList, "com".toList]).run smallTree) :=
  ⟨smallTree_canonical, (run_keeps_iff smallTree_canonical _).2 trivial⟩

/-- When `x.b.com` is renamed to `z.b.com`, the search for the new owner of `y.z.b.com` does not
end. -/
theorem run_endless : ¬ ∀ (tree : Tree) (operation : Operation), tree.Canonical →
    Keeps (operation.run tree) := by
  intro h
  refine (h smallTree (.rename 2 ["z".toList, "b".toList, "com".toList]) smallTree_canonical).1 ?_
  rfl

end Region
end Unameit
