import Unameit.Region.Subregions

/-!
# Region.MoveCell — the subregions of a cell

When a cell is renamed its regions go with it, and its subcells go to its old owner.  The plain
regions keep their owners, so in the middle of the loop every region still has the cell that it had
in the tree before the change.  When other regions are adopted afterwards, the lowest of the renamed
regions above them is found in the table of the names that have been given (`findMoved_eq`).
-/

namespace Unameit
namespace Region

open List
open Region.Tree

variable {tree before : Tree} {u : Uuid} {event : Event} {old new : Values}

/-! ## Old subregions -/

open Classical in
noncomputable def movedValues (tree before : Tree) (u : Uuid) (event : Event) (old new : Values)
    (r : Uuid) : Values :=
  if before.owner r ∈ tree.regionsOf u then
    if tree.isCell r then
      ⟨before.name r, trim (before.name r) old.name ++ old.relname, old.owner⟩
    else if event = .postupdate then
      ⟨trim (before.name r) old.name ++ new.name, before.relname r, before.owner r⟩
    else before.item r
  else before.item r

open Classical in
noncomputable def movedEntry (tree before : Tree) (u : Uuid) (event : Event) (old new : Values)
    (r : Uuid) : Moved :=
  if before.owner r ∈ tree.regionsOf u ∧ tree.isCell r = false ∧ event = .postupdate then
    [(trim (before.name r) old.name ++ new.name, r)]
  else []

lemma SameWays.writeAll_movedValues (h : SameWays tree before) (done : List Uuid) :
    SameWays tree (before.writeAll done (movedValues tree before u event old new)) where
  items := h.items
  isCell := h.isCell
  owner := by
    intro r hr
    rw [← h.owner r hr]
    by_cases hd : r ∈ done
    · rw [Tree.owner, Tree.item_writeAll_of_mem hd, movedValues]
      split_ifs <;> first | rfl | simp_all
    · rw [Tree.owner, Tree.item_writeAll_of_not_mem hd, Tree.owner]

lemma Tree.writeAll_concat_of_eq {v : Uuid → Values} {done : List Uuid} {r : Uuid}
    (hv : v r = before.item r) : before.writeAll (done ++ [r]) v = before.writeAll done v := by
  simp only [writeAll, mk.injEq, true_and]
  funext x
  by_cases hx : x = r
  · subst hx
    simp [hv]
  · simp [hx]

section Move

variable {done : List Uuid} {moved : Moved} {r : Uuid}

lemma mem_regionsOf_iff {l : List Uuid} {c : Uuid} (hr : r ∈ tree.live) (hway : Way tree r l c) :
    r ∈ tree.regionsOf u ↔ c = u := by
  constructor
  · rintro ⟨-, l', hway'⟩
    exact (hway.unique hway').2
  · rintro rfl
    exact ⟨hr, l, hway⟩

lemma moveSubregion_eq (hcanon : tree.Canonical) (h : SameWays tree before) (hnot : r ∉ done)
    (hr : r ∈ tree.live) (howner : before.owner r ∈ tree.live) :
    moveSubregion before u event old new
        (before.writeAll done (movedValues tree before u event old new), moved) r =
      .ok (before.writeAll (done ++ [r]) (movedValues tree before u event old new),
        movedEntry tree before u event old new r ++ moved) := by
  have hsame : SameWays tree (before.writeAll done (movedValues tree before u event old new)) :=
    h.writeAll_movedValues done
  have hitem : (before.writeAll done (movedValues tree before u event old new)).item r =
      before.item r := item_writeAll_of_not_mem hnot
  obtain ⟨l, c, hway, -⟩ := hcanon.exists_way howner
  have hcell : udbCellOf (before.writeAll done (movedValues tree before u event old new))
      (before.item r).owner = .ok (some c) := (hsame.way hway).cellOf
  have hmem : before.owner r ∈ tree.regionsOf u ↔ c = u := mem_regionsOf_iff howner hway
  simp only [moveSubregion, hcell, bind, Except.bind]
  by_cases hcu : c = u
  swap
  · -- subregions of other cells stay as they are
    have hK : before.owner r ∉ tree.regionsOf u := fun hK => hcu (hmem.1 hK)
    have hv : movedValues tree before u event old new r = before.item r := if_neg hK
    have he : movedEntry tree before u event old new r = [] := if_neg fun hK' => hK hK'.1
    simp [hcu, he, writeAll_concat_of_eq hv, pure, Except.pure]
  have hK := hmem.2 hcu
  cases hrcell : tree.isCell r with
  | true =>
    have hself : udbCellOf (before.writeAll done (movedValues tree before u event old new)) r =
        .ok (some r) := cellOf_cell (hsame.isCell ▸ hrcell)
    have hv : movedValues tree before u event old new r =
        { before.item r with
          owner := old.owner, relname := trim (before.item r).name old.name ++ old.relname } := by
      simp [movedValues, hK, hrcell, name]
    have he : movedEntry tree before u event old new r = [] := by
      simp [movedEntry, hrcell]
    have hstep : udbUpdate (before.writeAll done (movedValues tree before u event old new)) r
        (movedValues tree before u event old new r) =
        .ok (before.writeAll (done ++ [r]) (movedValues tree before u event old new)) :=
      udbUpdate_writeAll (checkOwner_cell (hsame.isCell ▸ hrcell))
    rw [hv] at hstep
    simp [hcu, hself, hitem, hstep, he]
    rfl
  | false =>
    obtain ⟨l', c', hway', -⟩ := hcanon.exists_way hr
    have hne : c' ≠ r := by
      rintro rfl
      simp [hway'.isCell] at hrcell
    have hself : udbCellOf (before.writeAll done (movedValues tree before u event old new)) r =
        .ok (some c') := (hsame.way hway').cellOf
    by_cases hevent : event = .postupdate
    · have hv : movedValues tree before u event old new r =
          { before.item r with name := trim (before.item r).name old.name ++ new.name } := by
        rw [movedValues, if_pos hK, if_neg (by simp [hrcell]), if_pos hevent]
        rfl
      have he : movedEntry tree before u event old new r =
          [(trim (before.item r).name old.name ++ new.name, r)] :=
        if_pos ⟨hK, hrcell, hevent⟩
      subst hevent
      rw [he, writeAll_concat, hv, hself]
      simp [hcu, hne, udbUpdateName, hitem, pure, Except.pure]
    · have hv : movedValues tree before u event old new r = before.item r := by
        rw [movedValues, if_pos hK, if_neg (by simp [hrcell]), if_neg hevent]
      have he : movedEntry tree before u event old new r = [] :=
        if_neg fun hall => hevent hall.2.2
      rw [he, writeAll_concat_of_eq hv, hself]
      simp [hcu, hne, hevent, pure, Except.pure]

end Move

def cellSubs (before : Tree) (old : Values) : List Uuid :=
  before.udbQbe fun r => decide (Extends (before.name r) old.name)

lemma mem_cellSubs {r : Uuid} :
    r ∈ cellSubs before old ↔ r ∈ before.live ∧ Extends (before.name r) old.name := by
  simp [cellSubs, mem_udbQbe]

noncomputable def movedTable (tree before : Tree) (u : Uuid) (event : Event) (old new : Values)
    (done : List Uuid) : Moved :=
  done.reverse.flatMap (movedEntry tree before u event old new) ++
    if event = .postupdate then [(new.name, u)] else []

lemma updateOldSubregions_cell (hcanon : tree.Canonical) (h : SameWays tree before)
    (hlive : before.live ⊆ tree.live) (howner : ∀ r ∈ before.live, before.owner r ∈ tree.live) :
    updateOldSubregions u true event { tree := before, new := new, old := old } =
      .ok (before.writeAll (cellSubs before old) (movedValues tree before u event old new),
        movedTable tree before u event old new (cellSubs before old)) := by
  have hnodup : before.items.Nodup := h.items ▸ hcanon.nodup
  have hloop := foldlM_eq_after (moveSubregion before u event old new) (cellSubs before old)
    (fun done => (before.writeAll done (movedValues tree before u event old new),
      movedTable tree before u event old new done)) fun done r rest hl => by
      have hr := (mem_cellSubs.1 (mem_of_mem_done hl mem_cons_self)).1
      have hnot : r ∉ done := not_mem_of_nodup hl (hnodup.filter _)
      rw [moveSubregion_eq hcanon h hnot (hlive hr) (howner r hr)]
      simp [movedTable]
  exact hloop

/-! ## The table of moved regions -/

def TableOf (moved : Moved) (K : Set Uuid) (name : Uuid → Name) : Prop :=
  ∀ x k, moved.lookup x = some k ↔ k ∈ K ∧ name k = x

section Table

variable {moved : Moved} {K : Set Uuid} {name : Uuid → Name}

lemma lookup_eq_some_iff_mem (hfun : ∀ x k k', (x, k) ∈ moved → (x, k') ∈ moved → k = k')
    {x : Name} {k : Uuid} : moved.lookup x = some k ↔ (x, k) ∈ moved := by
  induction moved with
  | nil => simp
  | cons entry moved ih =>
    have hrest := ih fun x k k' hk hk' =>
      hfun x k k' (mem_cons_of_mem _ hk) (mem_cons_of_mem _ hk')
    by_cases hx : x = entry.1
    · subst hx
      rw [lookup_cons_self]
      constructor
      · intro heq
        rw [← Option.some.inj heq]
        exact mem_cons_self
      · intro hmem
        rw [hfun _ _ _ mem_cons_self hmem]
    · have hne : (x, k) ≠ entry := fun heq => hx (congrArg Prod.fst heq)
      rw [lookup_cons, beq_eq_false_iff_ne.2 hx]
      simp [hne, hrest]

/-- The search comes to the lowest region in the table that is at or above the name. -/
theorem findMoved_eq (htable : TableOf moved K name) (relcomps : Name) {x : Name}
    (hex : ∃ k ∈ K, name k <:+ x) :
    ∃ k ∈ K, ∃ rel, x = rel ++ name k ∧ (∀ k' ∈ K, name k' <:+ x → name k' <:+ name k) ∧
      findMoved moved relcomps x = .ok (relcomps ++ rel, k) := by
  induction x generalizing relcomps with
  | nil =>
    obtain ⟨k, hk, hsuf⟩ := hex
    have hname : name k = [] := suffix_nil.1 hsuf
    refine ⟨k, hk, [], by simp [hname], fun k' _ hk' => hname ▸ hk', ?_⟩
    simp [findMoved, (htable [] k).2 ⟨hk, hname⟩]
  | cons label comps ih =>
    cases hlookup : moved.lookup (label :: comps) with
    | some k =>
      obtain ⟨hk, hname⟩ := (htable _ k).1 hlookup
      refine ⟨k, hk, [], by simp [hname], fun k' _ hk' => hname ▸ hk', ?_⟩
      simp [findMoved, hlookup]
    | none =>
      have hnone : ∀ k ∈ K, name k <:+ label :: comps → name k <:+ comps := by
        intro k hk hsuf
        refine (suffix_cons_iff.1 hsuf).resolve_left fun hname => ?_
        rw [(htable _ k).2 ⟨hk, hname⟩] at hlookup
        cases hlookup
      obtain ⟨k, hk, hsuf⟩ := hex
      obtain ⟨k', hk', rel, hrel, hmax, hfind⟩ :=
        ih (relcomps ++ [label]) ⟨k, hk, hnone k hk hsuf⟩
      refine ⟨k', hk', label :: rel, by simp [← hrel], ?_, ?_⟩
      · exact fun k₁ hk₁ hsuf₁ => hmax k₁ hk₁ (hnone k₁ hk₁ hsuf₁)
      · simp [findMoved, hlookup, hfind]

lemma findMoved_nil (relcomps x : Name) : findMoved [] relcomps x = .error .endless := by
  induction x generalizing relcomps with
  | nil => rfl
  | cons label comps ih => exact ih _

end Table

end Region
end Unameit
