import Unameit.Lib.Loops
import Unameit.Region.Parts

/-!
# Region.Subregions — the loops over subregions

What the loops of `unameit_region_name_change` do to the tree.  Each of them changes its regions one
after the other, so the tree in the middle of a loop is the tree before it with the new values of the
regions that have been done.  An update succeeds or fails by the cells of a region and of its new
owner, and those are the same all through the loop.
-/

namespace Unameit
namespace Region

open List

variable {before : Tree} {u : Uuid}

variable {l done rest : List Uuid} {r : Uuid} {tree : Tree} {new : Values}

lemma not_mem_of_nodup (hl : l = done ++ r :: rest) (hnodup : l.Nodup) : r ∉ done := by
  subst hl
  intro hr
  exact (nodup_append.1 hnodup).2.2 r hr r mem_cons_self rfl

lemma mem_of_mem_done {r' : Uuid} (hl : l = done ++ r :: rest) (hr' : r' ∈ r :: done) : r' ∈ l := by
  rw [hl]
  rcases mem_cons.1 hr' with rfl | hr'
  · simp
  · simp [hr']

/-! ## Regions that change their owner -/

variable {c c' : Uuid} {lx ly : List Uuid}

section Reparent

variable {v : Uuid → Values} {x y : Uuid}

lemma Way.writeAll (h : Way before x lx c) (hdone : ∀ r ∈ done, r ∉ x :: lx) :
    Way (before.writeAll done v) x lx c := by
  refine h.congr h.items (fun _ _ => rfl) fun y hy _ => ?_
  exact congrArg Values.owner (Tree.item_writeAll_of_not_mem fun hd => hdone y hd hy)

/-- Regions go from the owner `x` to the owner `y`, neither of which is below any of them.  Plain
regions can do so within a cell only. -/
theorem checkOwner_writeAll (hx : Way before x lx c) (hy : Way before y ly c')
    (hdone : ∀ r' ∈ r :: done, r' ∉ x :: lx ∧ r' ∉ y :: ly) (hr : r ∈ before.items)
    (howner : before.owner r = x) (hnot : r ∉ done) :
    checkOwner (before.writeAll done v) r y =
      if before.isCell r = false ∧ c' ≠ c then .error (.error (.ecellmove r y)) else .ok () := by
  cases hcell : before.isCell r with
  | true =>
    exact checkOwner_cell hcell
  | false =>
    have hrx : (before.writeAll done v).owner r = x :=
      (congrArg Values.owner (Tree.item_writeAll_of_not_mem hnot)).trans howner
    have hway : Way (before.writeAll done v) x lx c :=
      hx.writeAll fun r' hr' => (hdone r' (mem_cons_of_mem _ hr')).1
    have hway' : Way (before.writeAll done v) y ly c' :=
      hy.writeAll fun r' hr' => (hdone r' (mem_cons_of_mem _ hr')).2
    have hcell' : (before.writeAll done v).isCell r = false := hcell
    rw [checkOwner_plain hcell' (Way.plain hcell' hr (hrx ▸ hway)) hway'
      (hdone r mem_cons_self).2]
    by_cases hc : c' = c
    · simp [hc]
    · simp [hc]

lemma udbUpdate_writeAll (hok : checkOwner (before.writeAll done v) r (v r).owner = .ok ()) :
    udbUpdate (before.writeAll done v) r (v r) = .ok (before.writeAll (done ++ [r]) v) := by
  simp only [udbUpdate, hok, Tree.writeAll_concat]
  rfl

lemma udbUpdate_error {values : Values} {e : Stop} (h : checkOwner tree r values.owner = .error e) :
    udbUpdate tree r values = .error e := by
  simp only [udbUpdate, h]
  rfl

end Reparent

/-! ## A plain region -/

def plainSubs (before : Tree) (u : Uuid) : List Uuid := before.udbQbe fun r => before.owner r = u

def plainValues (before : Tree) (old : Values) (r : Uuid) : Values :=
  ⟨before.name r, before.relname r ++ old.relname, old.owner⟩

lemma plainValues_eq (h : tree.Canonical) (hroot : u ≠ tree.root) (hr : r ∈ tree.live)
    (howner : tree.owner r = u) (hitem : before.item r = tree.item r) :
    plainValues before (tree.item u) r =
      ⟨tree.name r, trim (tree.name r) (tree.name u) ++ tree.relname u, tree.owner u⟩ := by
  have hplaced := (h.placed hr (h.extends_of_owner hr hroot howner).1).relname
  rw [howner] at hplaced
  rw [hplaced, trim_append, ← hplaced, plainValues, Tree.name, Tree.relname, hitem]
  rfl

lemma updateOldSubregions_plain {event : Event} {old : Values} (hnodup : before.items.Nodup)
    (hx : Way before u lx c) (hy : Way before old.owner ly c)
    (hsubs : ∀ r ∈ before.live, before.owner r = u → r ∉ u :: lx ∧ r ∉ old.owner :: ly) :
    updateOldSubregions u false event { tree := before, new := new, old := old } =
      .ok (before.writeAll (plainSubs before u) (plainValues before old), []) := by
  have hmem : ∀ r ∈ plainSubs before u, r ∈ before.live ∧ before.owner r = u := by
    intro r hr
    simpa [plainSubs, Tree.mem_udbQbe] using hr
  have hloop := foldlM_eq_after (reparentSubregion before old) (plainSubs before u)
    (fun done => before.writeAll done (plainValues before old)) fun done r rest hl => by
      have hdone : ∀ r' ∈ r :: done, r' ∈ before.live ∧ before.owner r' = u := fun r' hr' =>
        hmem r' (mem_of_mem_done hl hr')
      have hr := hdone r mem_cons_self
      have hnot : r ∉ done := not_mem_of_nodup hl (hnodup.filter _)
      have hok : checkOwner (before.writeAll done (plainValues before old)) r old.owner = _ :=
        checkOwner_writeAll hx hy (fun r' hr' => hsubs r' (hdone r' hr').1 (hdone r' hr').2)
          hr.1.1 hr.2 hnot
      rw [if_neg (by simp)] at hok
      rw [reparentSubregion, Tree.item_writeAll_of_not_mem hnot]
      exact udbUpdate_writeAll hok
  rw [Tree.writeAll_nil] at hloop
  change (do return (← (plainSubs before u).foldlM (reparentSubregion before old) before, [])) = _
  rw [hloop]
  rfl

/-! ## A new region -/

def newSubs (before : Tree) (new : Values) : List Uuid :=
  before.udbQbe fun r =>
    before.owner r = new.owner && decide (Extends (before.relname r) new.relname)

lemma mem_newSubs : r ∈ newSubs before new ↔
    r ∈ before.live ∧ before.owner r = new.owner ∧ Extends (before.relname r) new.relname := by
  simp [newSubs, Tree.mem_udbQbe]

def newValues (before : Tree) (u : Uuid) (new : Values) (r : Uuid) : Values :=
  ⟨before.name r, trim (before.relname r) new.relname, u⟩

section Create

section

variable (hnodup : before.items.Nodup) (hx : Way before new.owner lx c) (hy : Way before u ly c')
  (hsubs : ∀ r ∈ newSubs before new, r ∉ new.owner :: lx ∧ r ∉ u :: ly)

include hnodup hx hy hsubs

lemma adoptSubregion_create (hl : newSubs before new = done ++ r :: rest) :
    adoptSubregion before [] u .postcreate new (before.writeAll done (newValues before u new)) r =
      if before.isCell r = false ∧ c' ≠ c then .error (.error (.ecellmove r u))
      else .ok (before.writeAll (done ++ [r]) (newValues before u new)) := by
  have hr := mem_newSubs.1 (mem_of_mem_done hl mem_cons_self)
  have hnot : r ∉ done := not_mem_of_nodup hl (hnodup.filter _)
  have hcheck : checkOwner (before.writeAll done (newValues before u new)) r u = _ :=
    checkOwner_writeAll hx hy (fun r' hr' => hsubs r' (mem_of_mem_done hl hr'))
      hr.1.1 hr.2.1 hnot
  have hstep : adoptSubregion before [] u .postcreate new
      (before.writeAll done (newValues before u new)) r =
        udbUpdate (before.writeAll done (newValues before u new)) r (newValues before u new r) := by
    simp only [adoptSubregion, Tree.item_writeAll_of_not_mem hnot]
    rfl
  rw [hstep]
  split_ifs at hcheck ⊢ with hbad
  · exact udbUpdate_error hcheck
  · exact udbUpdate_writeAll hcheck

/-- The loop fails if a plain region would come to be in a new cell. -/
theorem updateNewSubregions_create :
    updateNewSubregions u .postcreate new before [] =
        .ok (before.writeAll (newSubs before new) (newValues before u new)) ∨
      ∃ e, updateNewSubregions u .postcreate new before [] = .error (.error e) := by
  have hloop := foldlM_after (adoptSubregion before [] u .postcreate new) (newSubs before new)
    (fun done => before.writeAll done (newValues before u new))
    (fun r => before.isCell r = false ∧ c' ≠ c) (fun e => ∃ e', e = Stop.error e')
    (fun done r rest hl hbad => by
      rw [adoptSubregion_create hnodup hx hy hsubs hl, if_neg hbad])
    (fun done r rest hl hbad => by
      rw [adoptSubregion_create hnodup hx hy hsubs hl, if_pos hbad]
      exact ⟨_, ⟨_, rfl⟩, rfl⟩)
  rcases hloop with ⟨-, hok⟩ | ⟨-, e, ⟨e', rfl⟩, he⟩
  · exact .inl hok
  · exact .inr ⟨e', he⟩

end

end Create

end Region
end Unameit
