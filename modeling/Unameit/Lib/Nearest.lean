import Mathlib.Data.List.Infix
import Mathlib.Data.Set.Function

/-!
# Nearest — trees that are given by names

Names are lists, read from the most specific element on, and `x` extends `y` if `y` is a proper
suffix of `x`.  The parent of a named node is the node with the longest name that its name extends
(`Nearest`).  When a part of such a tree is taken out, the nodes whose parents are gone go to the
parent of its top node (`Cut`).  When a tree is put in below a name, some nodes go over to nodes of
that tree, and everything else stays where it is, provided that no node lies between (`Graft`).
-/

namespace Unameit

open List

variable {α ι : Type*}

/-! ## Extending a name -/

def Extends (x y : List α) : Prop := y <:+ x ∧ y ≠ x

instance [DecidableEq α] (x y : List α) : Decidable (Extends x y) :=
  inferInstanceAs (Decidable (_ ∧ _))

namespace Extends

variable {x y z : List α}

lemma irrefl : ¬ Extends x x := fun h => h.2 rfl

lemma length_lt (h : Extends x y) : y.length < x.length := by
  rcases lt_or_ge y.length x.length with hlt | hge
  · exact hlt
  · exact absurd (h.1.eq_of_length_le hge) h.2

lemma of_suffix_of_length_lt (h : y <:+ x) (hlt : y.length < x.length) : Extends x y :=
  ⟨h, fun heq => by simp [heq] at hlt⟩

lemma not_suffix (h : Extends x y) : ¬ x <:+ y :=
  fun hxy => not_lt.2 hxy.length_le h.length_lt

lemma trans_suffix (h : Extends x y) (hz : z <:+ y) : Extends x z :=
  of_suffix_of_length_lt (hz.trans h.1) (lt_of_le_of_lt hz.length_le h.length_lt)

lemma of_suffix (hy : y <:+ x) (h : Extends y z) : Extends x z :=
  of_suffix_of_length_lt (h.1.trans hy) (lt_of_lt_of_le h.length_lt hy.length_le)

lemma trans (h : Extends x y) (h' : Extends y z) : Extends x z := h.trans_suffix h'.1

lemma total (hy : y <:+ x) (hz : z <:+ x) : y = z ∨ Extends y z ∨ Extends z y := by
  by_cases heq : y = z
  · exact .inl heq
  · rcases suffix_or_suffix_of_suffix hy hz with h | h
    · exact .inr (.inr ⟨h, heq⟩)
    · exact .inr (.inl ⟨h, fun h' => heq h'.symm⟩)

lemma append_left (p : List α) (hp : p ≠ []) : Extends (p ++ x) x :=
  of_suffix_of_length_lt (suffix_append ..) (by
    have := length_pos_iff.2 hp
    rw [length_append]
    omega)

lemma cons_iff {a : α} : Extends (a :: x) y ↔ y <:+ x := by
  constructor
  · rintro ⟨hsuf, hne⟩
    exact (suffix_cons_iff.1 hsuf).resolve_left hne
  · intro hsuf
    exact of_suffix_of_length_lt (hsuf.trans (suffix_cons ..))
      (Nat.lt_succ_of_le hsuf.length_le)

lemma suffix_append_right_iff : y ++ z <:+ x ++ z ↔ y <:+ x := by
  simp [List.IsSuffix, ← append_assoc]

lemma append_right_iff : Extends (x ++ z) (y ++ z) ↔ Extends x y := by
  simp [Extends, suffix_append_right_iff]

end Extends

/-! ## The nearest node above a name -/

/-- Of the nodes in `S`, `o` has the longest name that `x` extends. -/
structure Nearest (S : Set ι) (name : ι → List α) (x : List α) (o : ι) : Prop where
  mem : o ∈ S
  ext : Extends x (name o)
  max : ∀ w ∈ S, Extends x (name w) → name w <:+ name o

namespace Nearest

variable {S K : Set ι} {name name' : ι → List α} {x : List α} {o o' : ι}

lemma unique (hinj : Set.InjOn name S) (h : Nearest S name x o) (h' : Nearest S name x o') :
    o = o' :=
  hinj h.mem h'.mem ((h'.max o h.mem h.ext).eq_of_length_le (h.max o' h'.mem h'.ext).length_le)

lemma congr (hname : ∀ w ∈ S, name' w = name w) (h : Nearest S name x o) :
    Nearest S name' x o where
  mem := h.mem
  ext := by simpa only [hname o h.mem] using h.ext
  max := by
    intro w hw hx
    rw [hname w hw] at hx ⊢
    rw [hname o h.mem]
    exact h.max w hw hx

lemma subset (h : Nearest S name x o) (hK : K ⊆ S) (ho : o ∈ K) : Nearest K name x o where
  mem := ho
  ext := h.ext
  max := fun w hw => h.max w (hK hw)

lemma union (h : Nearest S name x o)
    (hK : ∀ k ∈ K, Extends x (name k) → name k <:+ name o) : Nearest (S ∪ K) name x o where
  mem := .inl h.mem
  ext := h.ext
  max := by
    rintro w (hw | hw) hx
    · exact h.max w hw hx
    · exact hK w hw hx

/-- Only the part that is extended by a common end counts. -/
theorem append_right {rel : ι → List α} {t : List α} (hname : ∀ w ∈ S, name w = rel w ++ t)
    {y : List α} : Nearest S name (y ++ t) o ↔ Nearest S rel y o := by
  constructor
  · intro h
    refine ⟨h.mem, ?_, ?_⟩
    · rw [← Extends.append_right_iff (z := t), ← hname o h.mem]
      exact h.ext
    · intro w hw hy
      have hx := h.max w hw (by rwa [hname w hw, Extends.append_right_iff])
      rwa [hname w hw, hname o h.mem, Extends.suffix_append_right_iff] at hx
  · intro h
    refine ⟨h.mem, ?_, ?_⟩
    · rw [hname o h.mem, Extends.append_right_iff]
      exact h.ext
    · intro w hw hy
      rw [hname w hw, Extends.append_right_iff] at hy
      rw [hname w hw, hname o h.mem, Extends.suffix_append_right_iff]
      exact h.max w hw hy

end Nearest

/-! ## Taking out a part of the tree -/

/-- `K` is a part of the tree `S` with the top node `u`, which is below `p`. -/
structure Cut (S K : Set ι) (name : ι → List α) (u p : ι) : Prop where
  subset : K ⊆ S
  top : u ∈ K
  inj : Set.InjOn name S
  inner : ∀ k ∈ K, k ≠ u → ∃ o ∈ K, Nearest S name (name k) o
  parent : Nearest S name (name u) p
  outside : p ∉ K

namespace Cut

variable {S K : Set ι} {name : ι → List α} {u p o w k : ι} {x : List α}

/-- All names of the part are at or below the top node.  By induction on the length of the name,
which falls from a node to its parent. -/
theorem top_suffix (h : Cut S K name u p) (hk : k ∈ K) : name u <:+ name k := by
  induction hn : (name k).length using Nat.strongRecOn generalizing k with
  | _ n ih =>
    by_cases hku : k = u
    · rw [hku]
    · obtain ⟨o, hoK, ho⟩ := h.inner k hk hku
      exact (ih (name o).length (hn ▸ ho.ext.length_lt) hoK rfl).trans ho.ext.1

/-- What is above a node of the part, and not in the part, is above its top node. -/
theorem extends_top (h : Cut S K name u p) (hw : w ∈ S) (hwK : w ∉ K) (hk : k ∈ K)
    (hkw : Extends (name k) (name w)) : Extends (name u) (name w) := by
  induction hn : (name k).length using Nat.strongRecOn generalizing k with
  | _ n ih =>
    by_cases hku : k = u
    · rwa [← hku]
    · obtain ⟨o, hoK, ho⟩ := h.inner k hk hku
      have hne : name w ≠ name o := fun heq =>
        hwK ((h.inj hw (h.subset hoK) heq).symm ▸ hoK)
      exact ih (name o).length (hn ▸ ho.ext.length_lt) hoK ⟨ho.max w hw hkw, hne⟩ rfl

lemma nearest_of_not_mem (h : Nearest S name x o) (ho : o ∉ K) : Nearest (S \ K) name x o :=
  h.subset Set.sdiff_subset ⟨h.mem, ho⟩

/-- Nodes that are below the part go to the parent of its top node. -/
theorem nearest_of_mem (h : Cut S K name u p) (hx : Nearest S name x o) (ho : o ∈ K) :
    Nearest (S \ K) name x p where
  mem := ⟨h.parent.mem, h.outside⟩
  ext := (hx.ext.trans_suffix (h.top_suffix ho)).trans h.parent.ext
  max := by
    rintro w ⟨hw, hwK⟩ hxw
    have hne : name w ≠ name o := fun heq => hwK ((h.inj hw hx.mem heq).symm ▸ ho)
    exact h.parent.max w hw (h.extends_top hw hwK ho ⟨hx.max w hw hxw, hne⟩)

end Cut

/-! ## Putting in a tree -/

/-- The tree `K` with the top node `u` is put into `W`, where `p` is the nearest node above it. -/
structure Graft (W K : Set ι) (name : ι → List α) (u p : ι) : Prop where
  top : u ∈ K
  below : ∀ k ∈ K, k ≠ u → Extends (name k) (name u)
  parent : Nearest W name (name u) p
  fresh : ∀ w ∈ W, name w ≠ name u

/-- No node of `W` below the top node has the name of a node of `K`, or is above one. -/
def Graft.Clear (W K : Set ι) (name : ι → List α) (u : ι) : Prop :=
  ∀ w ∈ W, Extends (name w) (name u) → ∀ k ∈ K, ¬ name w <:+ name k

namespace Graft

variable {W K : Set ι} {name : ι → List α} {u p o w k : ι} {x : List α}

section

variable (h : Graft W K name u p)

include h

lemma top_suffix (hk : k ∈ K) : name u <:+ name k := by
  by_cases hku : k = u
  · rw [hku]
  · exact (h.below k hk hku).1

/-- A node of `W` that is above a name below the top node is above the top node, or below it. -/
theorem suffix_parent_or (hw : w ∈ W) (hx : name w <:+ x) (hxu : name u <:+ x) :
    name w <:+ name p ∨ Extends (name w) (name u) := by
  rcases Extends.total hx hxu with heq | hext | hext
  · exact absurd heq (h.fresh w hw)
  · exact .inr hext
  · exact .inl (h.parent.max w hw hext)

lemma nearest_top : Nearest (W ∪ K) name (name u) p :=
  h.parent.union fun _ hk hext => absurd (h.top_suffix hk) hext.not_suffix

lemma nearest_inner (hclear : Clear W K name u) (hk : k ∈ K) (ho : Nearest K name (name k) o) :
    Nearest (W ∪ K) name (name k) o := by
  rw [Set.union_comm]
  refine ho.union fun w hw hext => ?_
  rcases h.suffix_parent_or hw hext.1 (h.top_suffix hk) with hsuf | hbelow
  · exact (hsuf.trans h.parent.ext.1).trans (h.top_suffix ho.mem)
  · exact absurd hext.1 (hclear w hw hbelow k hk)

/-- Nodes that are not below the top node stay where they are. -/
theorem nearest_outer (hx : ¬ Extends x (name u)) (ho : Nearest W name x o) :
    Nearest (W ∪ K) name x o :=
  ho.union fun _ hk hext => absurd (hext.trans_suffix (h.top_suffix hk)) hx

/-- Nodes that come to be below the top node go to the nearest node of the new tree. -/
theorem nearest_adopted (hp : Nearest W name x p) (hk : Nearest K name x k) :
    Nearest (W ∪ K) name x k := by
  rw [Set.union_comm]
  refine hk.union fun w hw hext => ?_
  exact ((hp.max w hw hext).trans h.parent.ext.1).trans (h.top_suffix hk.mem)

/-- A parent below the top node. -/
theorem extends_of_ne (hinj : Set.InjOn name W) (hx : Extends x (name u)) (ho : Nearest W name x o)
    (hop : o ≠ p) : Extends (name o) (name u) := by
  rcases h.suffix_parent_or ho.mem ho.ext.1 hx.1 with hsuf | hbelow
  · have hpo := ho.max p h.parent.mem (hx.trans h.parent.ext)
    exact absurd (hinj ho.mem h.parent.mem (hsuf.eq_of_length_le hpo.length_le)) hop
  · exact hbelow

/-- Nodes below other nodes that are below the top node stay where they are. -/
theorem nearest_deeper (hinj : Set.InjOn name W) (hclear : Clear W K name u)
    (hx : Extends x (name u)) (ho : Nearest W name x o) (hop : o ≠ p) :
    Nearest (W ∪ K) name x o := by
  refine ho.union fun k hk hext => ?_
  have hbelow := h.extends_of_ne hinj hx ho hop
  rcases Extends.total hext.1 ho.ext.1 with heq | hko | hok
  · rw [heq]
  · exact absurd hko.1 (hclear o ho.mem hbelow k hk)
  · exact hok.1

lemma injOn (hW : Set.InjOn name W) (hK : Set.InjOn name K) (hclear : Clear W K name u) :
    Set.InjOn name (W ∪ K) := by
  have hne : ∀ w ∈ W, ∀ k ∈ K, name w ≠ name k := by
    intro w hw k hk heq
    have hsuf : name u <:+ name w := heq ▸ h.top_suffix hk
    exact hclear w hw ⟨hsuf, (h.fresh w hw).symm⟩ k hk (heq ▸ suffix_refl _)
  rintro a (ha | ha) b (hb | hb) heq
  · exact hW ha hb heq
  · exact absurd heq (hne a ha b hb)
  · exact absurd heq.symm (hne b hb a ha)
  · exact hK ha hb heq

/-- The condition is needed: without it two nodes have one name, or a node of `W` comes between a
node of `K` and its parent in `K`. -/
theorem clear_of_nearest (hdisj : ∀ k ∈ K, k ∉ W) (hinj : Set.InjOn name (W ∪ K))
    (hK : ∀ k ∈ K, k ≠ u → ∃ o ∈ K, Nearest (W ∪ K) name (name k) o) : Clear W K name u := by
  intro w hw hwu k hk hwk
  induction hn : (name k).length using Nat.strongRecOn generalizing k with
  | _ n ih =>
    have hne : name w ≠ name k := fun heq =>
      hdisj k hk (hinj (.inl hw) (.inr hk) heq ▸ hw)
    have hku : k ≠ u := by
      rintro rfl
      exact hwu.not_suffix hwk
    obtain ⟨o, hoK, ho⟩ := hK k hk hku
    exact ih (name o).length (hn ▸ ho.ext.length_lt) o hoK
      (ho.max w (.inl hw) ⟨hwk, hne⟩) rfl

/-- Above every node below the top node there is one whose parent is that of the top node. -/
theorem exists_first (hinj : Set.InjOn name W)
    (hW : ∀ w ∈ W, Extends (name w) (name u) → ∃ o, Nearest W name (name w) o) (hw : w ∈ W)
    (hwu : Extends (name w) (name u)) :
    ∃ f ∈ W, Extends (name f) (name u) ∧ Nearest W name (name f) p ∧ name f <:+ name w := by
  induction hn : (name w).length using Nat.strongRecOn generalizing w with
  | _ n ih =>
    obtain ⟨o, ho⟩ := hW w hw hwu
    by_cases hop : o = p
    · exact ⟨w, hw, hwu, hop ▸ ho, suffix_refl _⟩
    · obtain ⟨f, hf, hfu, hfp, hfo⟩ := ih (name o).length (hn ▸ ho.ext.length_lt) ho.mem
        (h.extends_of_ne hinj hwu ho hop) rfl
      exact ⟨f, hf, hfu, hfp, hfo.trans ho.ext.1⟩

end

end Graft

end Unameit
