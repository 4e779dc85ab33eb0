import Unameit.Region.Cells

/-!
# Region.Canonical — canonical trees

In a canonical tree names get shorter on the way up, so every region has a cell
(`Tree.Canonical.exists_way`), and the first loop of `unameit_region_name_change` finds the nearest
region above a name (`findAncestor_eq`).  The regions of a cell are a part of the tree with the cell
on top, and so is every region by itself (`Tree.Canonical.cut_cell`, `Tree.Canonical.cut_self`).
-/

namespace Unameit
namespace Region

variable {x : Name} {l : List Uuid}

variable {tree : Tree} {r u c c' : Uuid}

namespace Tree

lemma mem_udbQbe {p : Uuid → Bool} : r ∈ tree.udbQbe p ↔ r ∈ tree.live ∧ p r = true := by
  simp [udbQbe, live, and_assoc]

/-- `c` is the cell of `r`. -/
def InCell (tree : Tree) (r c : Uuid) : Prop := ∃ l, Way tree r l c

lemma InCell.unique (h : tree.InCell r c) (h' : tree.InCell r c') : c = c' := by
  obtain ⟨l, hway⟩ := h
  obtain ⟨l', hway'⟩ := h'
  exact (hway.unique hway').2

lemma inCell_cell_iff (hr : r ∈ tree.items) (hcell : tree.isCell r = true) :
    tree.InCell r c ↔ r = c := by
  have hself : tree.InCell r r := ⟨[], .cell hcell hr⟩
  constructor
  · exact hself.unique
  · rintro rfl
    exact hself

lemma inCell_plain_iff (hr : r ∈ tree.items) (hplain : tree.isCell r = false) :
    tree.InCell r c ↔ tree.InCell (tree.owner r) c := by
  constructor
  · rintro ⟨l, hway⟩
    obtain ⟨l', -, htail⟩ := hway.tail hplain
    exact ⟨l', htail⟩
  · rintro ⟨l, hway⟩
    exact ⟨_, hway.plain hplain hr⟩

section Placed

variable {tree' : Tree} {S : Set Uuid}

/-- The place of a region depends on its values and on the names of all regions. -/
theorem Placed.congr (h : tree.Placed S r) (hname : ∀ w ∈ S, tree'.name w = tree.name w)
    (hr : r ∈ S) (hitem : tree'.item r = tree.item r) : tree'.Placed S r where
  fqdn := hname r hr ▸ h.fqdn
  nearest := by
    rw [hname r hr, Tree.owner, hitem]
    exact h.nearest.congr hname
  relname := by
    rw [hname r hr, Tree.relname, Tree.owner, hitem]
    exact h.relname.trans (by rw [← hname _ h.nearest.mem, Tree.relname, Tree.owner])

lemma Ordered.congr (h : tree.Ordered S) (hroot : tree'.root = tree.root)
    (hitem : ∀ r ∈ S, tree'.item r = tree.item r) : tree'.Ordered S where
  inj := by
    intro a ha b hb heq
    rw [Tree.name, Tree.name, hitem a ha, hitem b hb] at heq
    exact h.inj ha hb heq
  placed := fun r hr hne => (h.placed r hr (hroot ▸ hne)).congr
    (fun w hw => congrArg Values.name (hitem w hw)) hr (hitem r hr)

end Placed

def regionsOf (tree : Tree) (u : Uuid) : Set Uuid := {r | r ∈ tree.live ∧ tree.InCell r u}

namespace Canonical

section

variable (h : tree.Canonical)

include h

lemma name_root : tree.name tree.root = [] := by
  simp [Tree.name, h.root.item]

lemma owner_root : tree.owner tree.root = tree.root := by
  simp [Tree.owner, h.root.item]

lemma placed (hr : r ∈ tree.live) (hroot : r ≠ tree.root) : tree.Placed tree.live r :=
  h.ordered.placed r hr hroot

lemma owner_live (hr : r ∈ tree.live) (hroot : r ≠ tree.root) : tree.owner r ∈ tree.live :=
  (h.placed hr hroot).nearest.mem

/-- Regions that are owned by another one than the root cell are below it. -/
theorem extends_of_owner (hr : r ∈ tree.live) (hroot : u ≠ tree.root) (howner : tree.owner r = u) :
    r ≠ tree.root ∧ Extends (tree.name r) (tree.name u) := by
  have hne : r ≠ tree.root := by
    rintro rfl
    exact hroot (howner.symm.trans h.owner_root)
  exact ⟨hne, howner ▸ (h.placed hr hne).nearest.ext⟩

lemma ne_root_of_plain (hplain : tree.isCell r = false) : r ≠ tree.root := by
  rintro rfl
  simp [h.root.isCell] at hplain

lemma ne_root_of_extends (hr : Extends (tree.name r) x) : r ≠ tree.root := by
  rintro rfl
  have hlt := hr.length_lt
  simp [h.name_root] at hlt

lemma eq_root_of_length_lt (hr : r ∈ tree.live) (hlen : (tree.name r).length < 2) :
    r = tree.root := by
  by_contra hroot
  have := (h.placed hr hroot).fqdn
  omega

/-- Every region has a cell, by induction on the length of its name. -/
theorem exists_way (hr : r ∈ tree.live) :
    ∃ l c, Way tree r l c ∧ ∀ y ∈ r :: l, y ∈ tree.live ∧ tree.name y <:+ tree.name r := by
  induction hn : (tree.name r).length using Nat.strongRecOn generalizing r with
  | _ n ih =>
    cases hcell : tree.isCell r with
    | true => exact ⟨[], r, .cell hcell hr.1, by simpa using hr⟩
    | false =>
      have hroot := h.ne_root_of_plain hcell
      have hext := (h.placed hr hroot).nearest.ext
      obtain ⟨l, c, hway, hup⟩ := ih _ (hn ▸ hext.length_lt) (h.owner_live hr hroot) rfl
      refine ⟨_, c, hway.plain hcell hr.1, ?_⟩
      refine List.forall_mem_cons.2 ⟨⟨hr, List.suffix_refl _⟩, fun y hy => ?_⟩
      exact ⟨(hup y hy).1, (hup y hy).2.trans hext.1⟩

lemma way_up (hr : r ∈ tree.live) (hway : Way tree r l c) :
    ∀ y ∈ r :: l, y ∈ tree.live ∧ tree.name y <:+ tree.name r := by
  obtain ⟨l', c', hway', hup⟩ := h.exists_way hr
  rwa [(hway.unique hway').1]

lemma cellOf_eq (hr : r ∈ tree.live) : ∃ c, tree.InCell r c ∧ udbCellOf tree r = .ok (some c) := by
  obtain ⟨l, c, hway, -⟩ := h.exists_way hr
  exact ⟨c, ⟨l, hway⟩, hway.cellOf⟩

lemma suffix_of_inCell (hr : r ∈ tree.regionsOf u) : tree.name u <:+ tree.name r := by
  obtain ⟨hlive, l, hway⟩ := hr
  exact (h.way_up hlive hway u hway.mem).2

/-- A region above another one, in the same cell, is on its way to the cell.  By induction on the
length of the name. -/
theorem mem_way_of_suffix {o : Uuid} (ho : o ∈ tree.live) (hway : Way tree o l c)
    (hu : u ∈ tree.live) (huc : tree.InCell u c) (hsuf : tree.name u <:+ tree.name o) :
    u ∈ o :: l := by
  induction hn : (tree.name o).length using Nat.strongRecOn generalizing o l with
  | _ n ih =>
    by_cases heq : u = o
    · rw [heq]
      exact List.mem_cons_self
    have hext : Extends (tree.name o) (tree.name u) :=
      ⟨hsuf, fun hname => heq (h.ordered.inj hu ho hname)⟩
    cases hcell : tree.isCell o with
    | true =>
      have hoc : o = c := (inCell_cell_iff ho.1 hcell).1 ⟨l, hway⟩
      have hmem : u ∈ tree.regionsOf o := ⟨hu, hoc ▸ huc⟩
      exact absurd (h.suffix_of_inCell hmem) hext.not_suffix
    | false =>
      have hroot := h.ne_root_of_plain hcell
      have hplaced := (h.placed ho hroot).nearest
      obtain ⟨l', rfl, htail⟩ := hway.tail hcell
      exact List.mem_cons_of_mem _ (ih _ (hn ▸ hplaced.ext.length_lt) hplaced.mem htail
        (hplaced.max u hu hext) rfl)

/-! ## Parts of the tree -/

lemma cut_self (hu : u ∈ tree.live) (hroot : u ≠ tree.root) :
    Cut tree.live {u} tree.name u (tree.owner u) where
  subset := Set.singleton_subset_iff.2 hu
  top := rfl
  inj := h.ordered.inj
  inner := fun _ hk hku => absurd hk hku
  parent := (h.placed hu hroot).nearest
  outside := fun heq => by
    have hext := (h.placed hu hroot).nearest.ext
    rw [Set.mem_singleton_iff.1 heq] at hext
    exact hext.irrefl

end

lemma plain_of_mem (hr : r ∈ tree.regionsOf u) (hru : r ≠ u) : tree.isCell r = false := by
  obtain ⟨hlive, hcell⟩ := hr
  by_contra hne
  exact hru ((inCell_cell_iff hlive.1 (by simpa using hne)).1 hcell)

lemma owner_mem_regionsOf (h : tree.Canonical) (hr : r ∈ tree.regionsOf u) (hru : r ≠ u) :
    tree.owner r ∈ tree.regionsOf u := by
  have hplain := plain_of_mem hr hru
  exact ⟨h.owner_live hr.1 (h.ne_root_of_plain hplain),
    (inCell_plain_iff hr.1.1 hplain).1 hr.2⟩

lemma cut_cell (h : tree.Canonical) (hu : u ∈ tree.live) (hroot : u ≠ tree.root)
    (hcell : tree.isCell u = true) :
    Cut tree.live (tree.regionsOf u) tree.name u (tree.owner u) where
  subset := fun _ hr => hr.1
  top := ⟨hu, (inCell_cell_iff hu.1 hcell).2 rfl⟩
  inj := h.ordered.inj
  inner := by
    intro k hk hku
    have hplain := plain_of_mem hk hku
    exact ⟨_, h.owner_mem_regionsOf hk hku, (h.placed hk.1 (h.ne_root_of_plain hplain)).nearest⟩
  parent := (h.placed hu hroot).nearest
  outside := fun hmem => (h.placed hu hroot).nearest.ext.not_suffix (h.suffix_of_inCell hmem)

end Canonical

end Tree

/-! ## The nearest region above a name -/

lemma udbQbe_name (h : tree.Canonical) (x : Name) :
    tree.udbQbe (fun r => tree.name r = x) = [] ∨
      ∃ r ∈ tree.live, tree.name r = x ∧ tree.udbQbe (fun r => tree.name r = x) = [r] := by
  have hmem : ∀ r ∈ tree.udbQbe (fun r => tree.name r = x), r ∈ tree.live ∧ tree.name r = x := by
    intro r hr
    simpa [Tree.mem_udbQbe] using hr
  have hnodup : (tree.udbQbe (fun r => tree.name r = x)).Nodup := h.nodup.filter _
  cases hq : tree.udbQbe (fun r => tree.name r = x) with
  | nil => exact .inl rfl
  | cons r rest =>
    rw [hq] at hmem hnodup
    obtain ⟨hr, hname⟩ := hmem r List.mem_cons_self
    refine .inr ⟨r, hr, hname, ?_⟩
    cases rest with
    | nil => rfl
    | cons r' rest =>
      obtain ⟨hr', hname'⟩ := hmem r' (by simp)
      have heq := h.ordered.inj hr hr' (hname.trans hname'.symm)
      simp [heq] at hnodup

/-- The first loop finds the nearest region, unless it is the root cell. -/
theorem findAncestor_eq (h : tree.Canonical) (labels : Name) (hx : x ≠ []) :
    ∃ o rel, Nearest tree.live tree.name x o ∧ x = rel ++ tree.name o ∧
      findAncestor tree labels x =
        .ok (if o = tree.root then none else some (o, labels ++ rel)) := by
  induction x generalizing labels with
  | nil => exact absurd rfl hx
  | cons label upname ih =>
    by_cases hlen : (label :: upname).length > 2
    · have hup : upname ≠ [] := by
        rintro rfl
        simp at hlen
      rcases udbQbe_name h upname with hq | ⟨r, hr, hname, hq⟩
      · -- no region has this name, so the loop goes on
        obtain ⟨o, rel, ho, hrel, hfind⟩ := ih (labels ++ [label]) hup
        refine ⟨o, label :: rel, ⟨ho.mem, ?_, ?_⟩, by simp [← hrel], ?_⟩
        · exact ho.ext.of_suffix (List.suffix_cons ..)
        · intro w hw hext
          have hne : tree.name w ≠ upname := by
            intro hname
            have hmem : w ∈ tree.udbQbe fun r => tree.name r = upname :=
              Tree.mem_udbQbe.2 ⟨hw, decide_eq_true hname⟩
            simp [hq] at hmem
          exact ho.max w hw ⟨Extends.cons_iff.1 hext, hne⟩
        · simp only [findAncestor, if_pos hlen, hq, hfind]
          simp
      · have hroot : r ≠ tree.root := by
          rintro rfl
          exact hup (hname.symm.trans h.name_root)
        refine ⟨r, [label], ⟨hr, ?_, ?_⟩, by simp [hname], ?_⟩
        · rw [hname]
          exact Extends.append_left [label] (by simp)
        · intro w _ hext
          rw [hname]
          exact Extends.cons_iff.1 hext
        · simp only [findAncestor, if_pos hlen, hq, if_neg hroot]
    · -- names have at least two labels, so only the root cell is left
      refine ⟨tree.root, label :: upname, ⟨h.root.live, ?_, ?_⟩, by simp [h.name_root], ?_⟩
      · rw [h.name_root]
        exact Extends.cons_iff.2 List.nil_suffix
      · intro w hw hext
        have hlt := hext.length_lt
        rw [h.eq_root_of_length_lt hw (by omega)]
      · simp only [findAncestor, if_neg hlen, if_true]

end Region
end Unameit
