import Unameit.Region.Canonical

/-!
# Region.Parts — the tree in the middle of a change

When the old subregions have been dealt with, the tree is in two parts: the regions that have a new
name, `K` with the region `u` on top, and all others, `W`, each of which is canonical by itself
(`Parts`).  What is left to do is to put the one into the other, by giving regions of `W` new owners
in `K`.  The outcome is canonical if and only if `K` is clear of regions of `W`
(`Parts.canonical_iff`).
-/

namespace Unameit
namespace Region

open Region.Tree

/-! ## Names without their ends -/

lemma trim_append (rel x : Name) : trim (rel ++ x) x = rel := by
  simp [trim]

lemma trim_append_of_suffix {x y : Name} (h : y <:+ x) : trim x y ++ y = x := by
  obtain ⟨rel, rfl⟩ := h
  rw [trim_append]

/-! ## Changing many regions -/

def Tree.writeAll (tree : Tree) (l : List Uuid) (v : Uuid → Values) : Tree :=
  { tree with item := fun r => if r ∈ l then v r else tree.item r }

variable {tree : Tree} {v : Uuid → Values} {r : Uuid}

section WriteAll

variable {l : List Uuid}

lemma Tree.item_writeAll_of_mem (h : r ∈ l) : (tree.writeAll l v).item r = v r := if_pos h

lemma Tree.item_writeAll_of_not_mem (h : r ∉ l) : (tree.writeAll l v).item r = tree.item r :=
  if_neg h

lemma Tree.writeAll_nil : tree.writeAll [] v = tree := by
  simp [writeAll]

lemma Tree.writeAll_concat : tree.writeAll (l ++ [r]) v = (tree.writeAll l v).setItem r (v r) := by
  simp only [writeAll, setItem, mk.injEq, true_and]
  funext x
  by_cases hx : x = r
  · simp [hx]
  · simp [hx]

end WriteAll

/-! ## Two parts -/

/-- The regions in `W` and those in `K`, with `u` on top, are two canonical trees. -/
structure Parts (tree : Tree) (W K : Set Uuid) (u : Uuid) : Prop where
  live : tree.live = W ∪ K
  disjoint : ∀ k ∈ K, k ∉ W
  nodup : tree.items.Nodup
  root : tree.RootSound
  ordered : tree.Ordered W
  graft : Graft W K tree.name u (tree.owner u)
  inj : Set.InjOn tree.name K
  fqdn : ∀ k ∈ K, 2 ≤ (tree.name k).length
  inner : ∀ k ∈ K, k ≠ u → Nearest K tree.name (tree.name k) (tree.owner k)
  relname : ∀ k ∈ K, tree.name k = tree.relname k ++ tree.name (tree.owner k)

variable {K : Set Uuid} {u : Uuid}

namespace Parts

variable {W : Set Uuid} {subs : List Uuid}

def First (tree : Tree) (W : Set Uuid) (u : Uuid) : Set Uuid :=
  {r | r ∈ W ∧ Extends (tree.name r) (tree.name u) ∧ tree.owner r = tree.owner u}

lemma ne_root_of_extends (h : Parts tree W K u) {x : Name} (hr : Extends (tree.name r) x) :
    r ≠ tree.root := by
  rintro rfl
  have hlt := hr.length_lt
  simp [name, h.root.item] at hlt

lemma ne_root_of_mem (h : Parts tree W K u) (hr : r ∈ K) : r ≠ tree.root := by
  rintro rfl
  have hlen := h.fqdn _ hr
  simp [name, h.root.item] at hlen

lemma nearest (h : Parts tree W K u) (hr : r ∈ W) (hext : Extends (tree.name r) (tree.name u)) :
    Nearest W tree.name (tree.name r) (tree.owner r) :=
  (h.ordered.placed r hr (h.ne_root_of_extends hext)).nearest

structure Adopted (tree : Tree) (K : Set Uuid) (r : Uuid) (values : Values) : Prop where
  name : values.name = tree.name r
  nearest : Nearest K tree.name (tree.name r) values.owner
  relname : tree.name r = values.relname ++ tree.name values.owner

lemma name_writeAll (hv : ∀ r ∈ subs, Adopted tree K r (v r)) :
    (tree.writeAll subs v).name = tree.name := by
  funext r
  by_cases hr : r ∈ subs
  · exact (congrArg Values.name (item_writeAll_of_mem hr)).trans (hv r hr).name
  · exact congrArg Values.name (item_writeAll_of_not_mem hr)

section

variable (h : Parts tree W K u) (hsubs : ∀ r, r ∈ subs ↔ r ∈ First tree W u)

include h hsubs

lemma placed_outside (hv : ∀ r ∈ subs, Adopted tree K r (v r))
    (hclear : Graft.Clear W K tree.name u) (hr : r ∈ W) (hroot : r ≠ tree.root) :
    (tree.writeAll subs v).Placed (W ∪ K) r := by
  have hplaced := h.ordered.placed r hr hroot
  have hname := name_writeAll hv
  refine ⟨hname ▸ hplaced.fqdn, ?_, ?_⟩
  · rw [hname]
    by_cases hsub : r ∈ subs
    · obtain ⟨-, -, howner⟩ := (hsubs r).1 hsub
      have hadopted := h.graft.nearest_adopted (howner ▸ hplaced.nearest) (hv r hsub).nearest
      simpa only [owner, item_writeAll_of_mem hsub] using hadopted
    · have howner : (tree.writeAll subs v).owner r = tree.owner r :=
        congrArg Values.owner (item_writeAll_of_not_mem hsub)
      rw [howner]
      by_cases hext : Extends (tree.name r) (tree.name u)
      · refine h.graft.nearest_deeper h.ordered.inj hclear hext hplaced.nearest fun heq => ?_
        exact hsub ((hsubs r).2 ⟨hr, hext, heq⟩)
      · exact h.graft.nearest_outer hext hplaced.nearest
  · rw [hname]
    by_cases hsub : r ∈ subs
    · simpa only [Tree.owner, Tree.relname, Tree.item_writeAll_of_mem hsub] using
        (hv r hsub).relname
    · simpa only [Tree.owner, Tree.relname, Tree.item_writeAll_of_not_mem hsub] using
        hplaced.relname

lemma not_mem_subs (hr : r ∈ K) : r ∉ subs :=
  fun hsub => h.disjoint r hr ((hsubs r).1 hsub).1

lemma placed_inside (hv : ∀ r ∈ subs, Adopted tree K r (v r)) (hclear : Graft.Clear W K tree.name u)
    (hr : r ∈ K) : (tree.writeAll subs v).Placed (W ∪ K) r := by
  have hname := name_writeAll hv
  have hitem : (tree.writeAll subs v).item r = tree.item r :=
    item_writeAll_of_not_mem (h.not_mem_subs hsubs hr)
  refine ⟨hname ▸ h.fqdn r hr, ?_, ?_⟩
  · rw [hname, owner, hitem]
    by_cases hru : r = u
    · rw [hru]
      exact h.graft.nearest_top
    · exact h.graft.nearest_inner hclear hr (h.inner r hr hru)
  · rw [hname]
    simpa only [Tree.owner, Tree.relname, hitem] using h.relname r hr

/-- When all regions next to `u` have been adopted, the tree is canonical if and only if no region
is in the way. -/
theorem canonical_iff (hv : ∀ r ∈ subs, Adopted tree K r (v r)) :
    (tree.writeAll subs v).Canonical ↔ Graft.Clear W K tree.name u := by
  have hname := name_writeAll hv
  have hlive : (tree.writeAll subs v).live = W ∪ K := h.live
  constructor
  · intro hcanon
    refine h.graft.clear_of_nearest h.disjoint ?_ fun k hk hku => ?_
    · rw [← hlive, ← hname]
      exact hcanon.ordered.inj
    · have hplaced := hcanon.placed (hlive ▸ .inr hk) (h.ne_root_of_mem hk)
      have howner : (tree.writeAll subs v).owner k = tree.owner k :=
        congrArg Values.owner (item_writeAll_of_not_mem (h.not_mem_subs hsubs hk))
      refine ⟨tree.owner k, (h.inner k hk hku).mem, ?_⟩
      rw [← hlive, ← hname, ← howner]
      exact hplaced.nearest
  · intro hclear
    refine ⟨h.nodup, ⟨h.root.live, h.root.isCell, ?_⟩, ?_, ?_⟩
    · have hroot : tree.root ∉ subs := fun hsub =>
        h.ne_root_of_extends ((hsubs _).1 hsub).2.1 rfl
      exact (item_writeAll_of_not_mem hroot).trans h.root.item
    · rw [hlive, hname]
      exact h.graft.injOn h.ordered.inj h.inj hclear
    · rw [hlive]
      rintro r (hr | hr) hroot
      · exact h.placed_outside hsubs hv hclear hr hroot
      · exact h.placed_inside hsubs hv hclear hr

end

/-- Without regions below the new name there is nothing left to do. -/
theorem canonical_of_none (h : Parts tree W K u)
    (hnone : ∀ w ∈ W, ¬ Extends (tree.name w) (tree.name u)) : tree.Canonical := by
  have hiff : (tree.writeAll [] tree.item).Canonical ↔ Graft.Clear W K tree.name u :=
    h.canonical_iff (fun r => ⟨nofun, fun hr => absurd hr.2.1 (hnone r hr.1)⟩) (by simp)
  exact hiff.2 fun w hw hext => absurd hext (hnone w hw)

/-- If there are some, they must be adopted. -/
theorem not_canonical (h : Parts tree W K u) {w : Uuid} (hw : w ∈ W)
    (hext : Extends (tree.name w) (tree.name u)) : ¬ tree.Canonical := by
  intro hcanon
  obtain ⟨f, hf, hfu, hfp, -⟩ := h.graft.exists_first h.ordered.inj
    (fun r hr hru => ⟨_, h.nearest hr hru⟩) hw hext
  have hplaced := hcanon.placed (h.live ▸ .inl hf) (h.ne_root_of_extends hfu)
  have howner := hfp.unique h.ordered.inj (h.nearest hf hfu)
  have hsuf := hplaced.nearest.max u (h.live ▸ .inr h.graft.top) hfu
  rw [← howner] at hsuf
  exact h.graft.parent.ext.not_suffix hsuf

end Parts

/-! ## Taking a part out -/

/-- The regions outside of `K` have been rearranged: those that had owners in `K` are now owned by
the old owner of `u`. -/
structure Rearranged (before after : Tree) (K : Set Uuid) (u : Uuid) : Prop where
  root : after.root = before.root
  kept : ∀ r ∈ before.live \ K, before.owner r ∉ K → after.item r = before.item r
  orphan : ∀ r ∈ before.live \ K, before.owner r ∈ K → after.item r =
    ⟨before.name r, trim (before.name r) (before.name u) ++ before.relname u, before.owner u⟩

variable {before after : Tree}

namespace Rearranged

lemma name_eq (h : Rearranged before after K u) (hr : r ∈ before.live \ K) :
    after.name r = before.name r := by
  by_cases howner : before.owner r ∈ K
  · rw [name, h.orphan r hr howner]
  · rw [name, h.kept r hr howner, name]

lemma ordered (h : Rearranged before after K u) (hcanon : before.Canonical)
    (hcut : Cut before.live K before.name u (before.owner u)) (hroot : u ≠ before.root) :
    after.Ordered (before.live \ K) where
  inj := by
    intro a ha b hb heq
    rw [h.name_eq ha, h.name_eq hb] at heq
    exact hcanon.ordered.inj ha.1 hb.1 heq
  placed := by
    intro r hr hrroot
    have hplaced := hcanon.placed hr.1 (h.root ▸ hrroot)
    have hname : ∀ w ∈ before.live \ K, after.name w = before.name w := fun w hw => h.name_eq hw
    by_cases howner : before.owner r ∈ K
    · have hitem := h.orphan r hr howner
      have hnearest := hcut.nearest_of_mem hplaced.nearest howner
      refine ⟨hname r hr ▸ hplaced.fqdn, ?_, ?_⟩
      · rw [hname r hr, owner, hitem]
        exact hnearest.congr hname
      · have hu := (hcanon.placed (hcut.subset hcut.top) hroot).relname
        have hsuf : before.name u <:+ before.name r :=
          (hcut.top_suffix howner).trans hplaced.nearest.ext.1
        rw [hname r hr, relname, owner, hitem, hname _ hnearest.mem, List.append_assoc,
          ← hu, trim_append_of_suffix hsuf]
    · have hkept : before.Placed (before.live \ K) r :=
        { hplaced with nearest := Cut.nearest_of_not_mem hplaced.nearest howner }
      exact hkept.congr hname hr (h.kept r hr howner)

end Rearranged

structure Renamed (before after : Tree) (K : Set Uuid) (u : Uuid) : Prop
    extends Rearranged before after K u where
  items : after.items = before.items
  deleted : after.deleted = before.deleted
  isCell : after.isCell = before.isCell
  inner : ∀ k ∈ K, k ≠ u → after.item k =
    ⟨trim (before.name k) (before.name u) ++ after.name u, before.relname k, before.owner k⟩
  fqdn : 2 ≤ (after.name u).length
  fresh : ∀ w ∈ before.live \ K, before.name w ≠ after.name u
  nearest : Nearest (before.live \ K) before.name (after.name u) (after.owner u)
  relname : after.name u = after.relname u ++ before.name (after.owner u)

namespace Renamed

variable {k : Uuid}

lemma name_inner (h : Renamed before after K u) (hk : k ∈ K) :
    after.name k = trim (before.name k) (before.name u) ++ after.name u := by
  by_cases hku : k = u
  · subst hku
    simp [trim]
  · exact congrArg Values.name (h.inner k hk hku)

section Parts

variable (h : Renamed before after K u) (hcanon : before.Canonical)
  (hcut : Cut before.live K before.name u (before.owner u)) (hroot : u ≠ before.root)

include hcanon hcut hroot in
lemma root_not_mem : before.root ∉ K := by
  intro hmem
  have hsuf := hcut.top_suffix hmem
  rw [hcanon.name_root, List.suffix_nil] at hsuf
  have hlen := (hcanon.placed (hcut.subset hcut.top) hroot).fqdn
  simp [hsuf] at hlen

include h hcanon hcut hroot in
lemma rootSound : after.RootSound := by
  have hmem := root_not_mem hcanon hcut hroot
  have hitem := h.kept before.root ⟨hcanon.root.live, hmem⟩ (by rwa [hcanon.owner_root])
  refine ⟨?_, ?_, ?_⟩
  · rw [h.root, live, h.items, h.deleted]
    exact hcanon.root.live
  · rw [h.root, h.isCell]
    exact hcanon.root.isCell
  · rw [h.root, hitem, hcanon.root.item]

include hcanon hcut in
lemma owner_mem (hk : k ∈ K) (hku : k ≠ u) : before.owner k ∈ K ∧
    Nearest before.live before.name (before.name k) (before.owner k) := by
  obtain ⟨o, hoK, ho⟩ := hcut.inner k hk hku
  have hkroot : k ≠ before.root := hcanon.ne_root_of_extends ho.ext
  have hnearest := (hcanon.placed (hcut.subset hk) hkroot).nearest
  exact ⟨ho.unique hcut.inj hnearest ▸ hoK, hnearest⟩

include h hcut in
lemma graft : Graft (before.live \ K) K after.name u (after.owner u) where
  top := hcut.top
  below := by
    intro k hk hku
    rw [h.name_inner hk]
    refine Extends.append_left _ fun htrim => hku ?_
    have heq := trim_append_of_suffix (hcut.top_suffix hk)
    rw [htrim, List.nil_append] at heq
    exact hcut.inj (hcut.subset hk) (hcut.subset hcut.top) heq.symm
  parent := h.nearest.congr fun w hw => h.name_eq hw
  fresh := fun w hw heq => h.fresh w hw ((h.name_eq hw).symm.trans heq)

include h hcut in
lemma injOn : Set.InjOn after.name K := by
  intro a ha b hb heq
  rw [h.name_inner ha, h.name_inner hb, List.append_left_inj] at heq
  refine hcut.inj (hcut.subset ha) (hcut.subset hb) ?_
  rw [← trim_append_of_suffix (hcut.top_suffix ha), heq,
    trim_append_of_suffix (hcut.top_suffix hb)]

include h hcanon hcut in
lemma nearest_inner (hk : k ∈ K) (hku : k ≠ u) :
    Nearest K after.name (after.name k) (after.owner k) := by
  obtain ⟨hoK, ho⟩ := owner_mem hcanon hcut hk hku
  have hbefore : ∀ w ∈ K, before.name w =
      trim (before.name w) (before.name u) ++ before.name u := fun w hw =>
    (trim_append_of_suffix (hcut.top_suffix hw)).symm
  have hrel := ho.subset hcut.subset hoK
  rw [hbefore k hk, Nearest.append_right hbefore] at hrel
  rw [h.name_inner hk, Nearest.append_right fun w hw => h.name_inner hw, owner,
    h.inner k hk hku]
  exact hrel

include h hcanon hcut in
lemma relname_inner (hk : k ∈ K) : after.name k = after.relname k ++ after.name (after.owner k) := by
  by_cases hku : k = u
  · subst hku
    rw [h.name_eq h.nearest.mem]
    exact h.relname
  · obtain ⟨hoK, ho⟩ := owner_mem hcanon hcut hk hku
    have hplaced := (hcanon.placed (hcut.subset hk) (hcanon.ne_root_of_extends ho.ext)).relname
    have htrim : trim (before.name k) (before.name u) =
        before.relname k ++ trim (before.name (before.owner k)) (before.name u) := by
      have heq := trim_append_of_suffix (hcut.top_suffix hoK)
      rw [hplaced, ← heq, ← List.append_assoc, trim_append, heq]
    rw [Tree.relname, Tree.owner, h.inner k hk hku, h.name_inner hk, h.name_inner hoK, htrim,
      List.append_assoc]

include h hcanon hcut hroot in
lemma parts : Parts after (before.live \ K) K u where
  live := by
    have hlive : after.live = before.live := by
      simp [live, h.items, h.deleted]
    rw [hlive, Set.sdiff_union_of_subset hcut.subset]
  disjoint := fun k hk hk' => hk'.2 hk
  nodup := h.items ▸ hcanon.nodup
  root := h.rootSound hcanon hcut hroot
  ordered := h.toRearranged.ordered hcanon hcut hroot
  graft := h.graft hcut
  inj := h.injOn hcut
  fqdn := by
    intro k hk
    have hlen := h.fqdn
    rw [h.name_inner hk, List.length_append]
    omega
  inner := fun k hk hku => h.nearest_inner hcanon hcut hk hku
  relname := fun k hk => h.relname_inner hcanon hcut hk

end Parts

end Renamed

end Region
end Unameit
