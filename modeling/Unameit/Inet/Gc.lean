import Unameit.Inet.Insert

/-!
# Inet.Gc — recycling empty blocks upwards

`Inet_GC_Block` removes a block without content: its sub-blocks, if any, move to its parent, which
is then removed in the same way when it carries neither a net nor a range.  At every level the
position in the parent is computed from the one prefix that the recycling started with.  When the
prefix has no bits set between the length of the block and the next boundary this is a splice of the
prefix tree; otherwise the parent keeps an entry for the recycled block (`Spliced.dangling`).
-/

namespace Unameit
namespace Inet

open HoleSeq (nth put putRun cardinality)
open BitStream

/-! ## Removing one block -/

structure Spliced (t t' : Tree) (p : InetPrefix) (u b : DbObject) : Prop where
  bits : t'.bits = t.bits
  items : t'.items = t.items
  stamp : t'.stamp = t.stamp
  rootBlock : t'.rootBlock = t.rootBlock
  universeNet : t'.universeNet = t.universeNet
  nextObject : t'.nextObject = t.nextObject
  free : t'.free = Function.update t.free .block (u :: t.free .block)
  sub_parent : ∀ j, nth (t'.subs b) j =
    if subIndex p (t.bits b) ≤ j ∧
        j < subIndex p (t.bits b) + 2 ^ (boundary (t.bits b) - t.bits u) then
      nth (t.subs u) (j - subIndex p (t.bits b))
    else nth (t.subs b) j
  sub_self : t'.subs u = []
  subs : ∀ c, c ≠ b → c ≠ u → t'.subs c = t.subs c
  super_in : ∀ i s, i < 2 ^ subBits (t.bits u) → nth (t.subs u) i = some s → t'.super s = some b
  super_out : ∀ s, (∀ i, nth (t.subs u) i ≠ some s) → t'.super s = t.super s

/-- One level of `Inet_GC_Block`: a block that ends at the boundary of its parent and has
sub-blocks is kept, and any other one is removed. -/
theorem inetGcBlock_succ (fam : Family) (p : InetPrefix) (fuel : ℕ) {t : Tree} {u b : DbObject}
    (hsuper : t.super u = some b) (hlt : t.bits b < t.bits u)
    (hle : t.bits u ≤ boundary (t.bits b)) :
    (t.bits u = boundary (t.bits b) ∧ (∃ s, t.Sub u s) ∧
        inetGcBlock fam p (fuel + 1) t ⟨t.bits u, u⟩ = t) ∨
      ((t.bits u = boundary (t.bits b) → ∀ s, ¬ t.Sub u s) ∧
        ∃ t', Spliced t t' p u b ∧ inetGcBlock fam p (fuel + 1) t ⟨t.bits u, u⟩ =
          if t.items .net b ≠ [] ∨ t.items .range b ≠ [] then t'
          else inetGcBlock fam p fuel t' ⟨t.bits b, b⟩) := by
  have hub : u ≠ b := by
    rintro rfl
    exact lt_irrefl _ hlt
  have hstop : ∀ t'' : Tree, t''.items = t.items →
      (inetFirstItem t'' b .net ≠ none ∨ inetFirstItem t'' b .range ≠ none ↔
        t.items .net b ≠ [] ∨ t.items .range b ≠ []) := by
    intro t'' hitems
    simp only [inetFirstItem, ne_eq, List.head?_eq_none_iff, hitems]
  rw [inetGcBlock, hsuper]
  simp only
  rw [← boundary]
  by_cases habsorb : boundary (t.bits b) > t.bits u
  · refine .inr ⟨fun heq => absurd heq (ne_of_lt habsorb), ?_⟩
    have hcount : 1 <<< subBits (t.bits u) = 2 ^ (boundary (t.bits b) - t.bits u) := by
      rw [← boundary_of_lt (le_of_lt hlt) habsorb, Nat.shiftLeft_eq, one_mul, boundary]
      congr 1
      omega
    rw [if_pos habsorb, hcount]
    refine ⟨_, ?_, if_congr (hstop _ rfl) rfl rfl⟩
    refine
      { bits := rfl
        items := rfl
        stamp := rfl
        rootBlock := rfl
        universeNet := rfl
        nextObject := rfl
        free := rfl
        sub_parent := ?_
        sub_self := by simp [udbAppendFreeList]
        subs := ?_
        super_in := ?_
        super_out := ?_ }
    · intro j
      simp only [udbAppendFreeList, Function.update_of_ne (Ne.symm hub), Function.update_self]
      rw [HoleSeq.nth_putRun]
    · intro c hcb hcu
      simp [udbAppendFreeList, Function.update_of_ne hcb, Function.update_of_ne hcu]
    · intro i s hi hs
      refine relink_of_mem _ _ _ ?_ hs
      rw [← hcount, Nat.shiftLeft_eq, one_mul]
      exact hi
    · intro s hs
      exact relink_eq _ _ _ _ _ fun i _ => hs i
  · have hbound : t.bits u = boundary (t.bits b) := le_antisymm hle (Nat.le_of_not_lt habsorb)
    rw [if_neg habsorb]
    by_cases hcard : cardinality (t.subs u) > 0
    · refine .inl ⟨hbound, ?_, ?_⟩
      · by_contra hnone
        have hzero : cardinality (t.subs u) = 0 := by
          rw [HoleSeq.cardinality_eq_zero_iff]
          intro i
          cases hi : nth (t.subs u) i with
          | none => rfl
          | some s => exact absurd ⟨s, i, hi⟩ hnone
        omega
      · rw [if_pos hcard]
    · have hempty : ∀ i, nth (t.subs u) i = none :=
        (HoleSeq.cardinality_eq_zero_iff _).1 (Nat.eq_zero_of_not_pos hcard)
      refine .inr ⟨?_, ?_⟩
      · rintro _ s ⟨i, hi⟩
        rw [hempty i] at hi
        cases hi
      · rw [if_neg hcard]
        refine ⟨_, ?_, if_congr (hstop _ rfl) rfl rfl⟩
        refine
          { bits := rfl
            items := rfl
            stamp := rfl
            rootBlock := rfl
            universeNet := rfl
            nextObject := rfl
            free := rfl
            sub_parent := ?_
            sub_self := by simp [udbAppendFreeList]
            subs := ?_
            super_in := ?_
            super_out := fun _ _ => rfl }
        · intro j
          simp only [udbAppendFreeList, Function.update_of_ne (Ne.symm hub), Function.update_self]
          rw [HoleSeq.nth_put, hempty, hbound, Nat.sub_self]
          refine if_congr ?_ rfl rfl
          omega
        · intro c hcb hcu
          simp [udbAppendFreeList, Function.update_of_ne hcb, Function.update_of_ne hcu]
        · intro i s _ hs
          rw [hempty i] at hs
          cases hs

def cutCover (T : Coverage) (u : DbObject) : Coverage :=
  fun c a => T c a ∧ c ≠ u

variable {fam : Family} {t t' : Tree} {r u b : DbObject} {p : InetPrefix}
  {T : Coverage} {dir : Directory}

namespace Spliced

/-- With an aligned prefix the sub-blocks of `u` take its place in the parent. -/
theorem shape (g : Spliced t t' p u b) (h : Shape fam t r T) (hu : T u p.stream) (hur : u ≠ r)
    (hsuper : t.super u = some b) (halign : p.AlignedAt (t.bits u))
    (hleaf : t.bits u = boundary (t.bits b) → ∀ s, ¬ t.Sub u s) :
    Shape fam t' r (cutCover T u) := by
  rcases h.cover.parent_of_mem hu hur with ⟨b', hb', hb, hchild⟩
  obtain rfl : b' = b := Option.some.inj (hb'.symm.trans hsuper)
  have hlt : t.bits b' < t.bits u := (h.cover.child_mem hb hchild).2.2
  have hle : t.bits u ≤ boundary (t.bits b') := (h.fits hb hchild).2.2
  have hfull : t.bits b' < fam.bits := (h.fits hb hchild).1
  have hagree : ∀ {a}, T b' a → Agree (t.bits b') p.stream a := fun ha =>
    h.cover.agree_of_mem hb ha
  have hrun : ∀ {a}, T b' a → (subIndex p (t.bits b') ≤ window a (t.bits b') (subBits (t.bits b')) ∧
      window a (t.bits b') (subBits (t.bits b')) <
        subIndex p (t.bits b') + 2 ^ (boundary (t.bits b') - t.bits u) ↔ T u a) := by
    intro a ha
    rw [halign.mem_run_iff hlt hle (hagree ha)]
    exact (h.cover.mem_iff_agree hu).symm
  -- A sub-block of `u` has its index in `u` on top of the start of the run.
  have hin : ∀ a, T u a → (t'.layout r).child b' a = (t.layout r).child u a := by
    intro a ha
    have hba : T b' a := h.cover.mem_of_le hb hu (le_of_lt hlt) ha
    rw [layout_child, g.bits, g.sub_parent, if_pos ((hrun hba).2 ha), layout_child]
    rcases Nat.lt_or_eq_of_le hle with hinner | hbound
    · rw [← halign.subIndex_add_window hlt hinner (h.cover.agree_of_mem hu ha),
        Nat.add_sub_cancel_left]
    · have hnone : ∀ i, nth (t.subs u) i = none := by
        intro i
        cases hi : nth (t.subs u) i with
        | none => rfl
        | some s => exact absurd ⟨i, hi⟩ (hleaf hbound s)
      rw [hnone, hnone]
  have hout : ∀ a, T b' a → ¬ T u a → (t'.layout r).child b' a = (t.layout r).child b' a := by
    intro a hba ha
    rw [layout_child, g.bits, g.sub_parent, if_neg (fun hr => ha ((hrun hba).1 hr)), layout_child]
  refine ⟨g.rootBlock.trans h.root, ?_, ?_⟩
  · refine h.cover.splice rfl hu hur hsuper ?_ hin hout ?_ ?_ ?_
    · intro c a _ _
      rw [layout_len, layout_len, g.bits]
    · intro c a _ hcb hcu
      rw [layout_child, layout_child, g.bits, g.subs c hcb hcu]
    · intro s a _ hs
      exact g.super_in _ s (window_lt _ _ _) hs
    · intro s a hs hne
      refine g.super_out s fun i hi => hne ?_
      exact (h.super_of_entry hu hi).1
  · rintro a c i s ⟨hc, hcu⟩ hs
    rw [g.bits]
    by_cases hcb : c = b'
    · subst hcb
      rw [g.sub_parent] at hs
      split at hs
      · rename_i hi
        -- An entry that came from `u` ends at the same boundary.
        rcases h.fits hu hs with ⟨_, _, hsle⟩
        have hinner : t.bits u < boundary (t.bits c) := by
          refine lt_of_le_of_ne hle fun hbound => ?_
          exact hleaf hbound s ⟨_, hs⟩
        rw [boundary_of_lt (le_of_lt hlt) hinner] at hsle
        exact ⟨hfull, lt_of_lt_of_le hi.2 (halign.run_end_le hlt hle), hsle⟩
      · exact h.fits hc hs
    · rw [g.subs c hcb hcu] at hs
      exact h.fits hc hs

lemma spare_iff (g : Spliced t t' p u b) (o : DbObject) : t'.Spare o ↔ t.Spare o ∨ o = u := by
  unfold Tree.Spare
  rw [g.nextObject, g.free]
  constructor
  · rintro (⟨cls, ho⟩ | hle)
    · cases cls with
      | block =>
        rw [Function.update_self, List.mem_cons] at ho
        rcases ho with rfl | ho
        · exact .inr rfl
        · exact .inl (.inl ⟨_, ho⟩)
      | slot => exact .inl (.inl ⟨.slot, by simpa using ho⟩)
    · exact .inl (.inr hle)
  · rintro ((⟨cls, ho⟩ | hle) | rfl)
    · cases cls with
      | block => exact .inl ⟨.block, by simp [ho]⟩
      | slot => exact .inl ⟨.slot, by simpa using ho⟩
    · exact .inr hle
    · exact .inl ⟨.block, by simp⟩

lemma storage (g : Spliced t t' p u b) (hst : Storage t T) (hu : T u p.stream)
    (hb : T b p.stream) (hempty : ∀ type, t.items type u = []) : Storage t' (cutCover T u) := by
  have hlive : ∀ cls, u ∉ t.free cls := fun cls hfree => hst.outside (.inl ⟨cls, hfree⟩) hu
  have hslot : t'.free .slot = t.free .slot := by
    rw [g.free]
    simp
  have hblock : t'.free .block = u :: t.free .block := by
    rw [g.free, Function.update_self]
  refine
    { nodup := ?_
      disjoint := ?_
      created := ?_
      outside := ?_
      blank_subs := ?_
      blank_items := ?_ }
  · intro cls
    cases cls with
    | block =>
      rw [hblock, List.nodup_cons]
      exact ⟨hlive .block, hst.nodup .block⟩
    | slot =>
      rw [hslot]
      exact hst.nodup .slot
  · intro o ho
    rw [hblock, List.mem_cons] at ho
    rw [hslot]
    rcases ho with rfl | ho
    · exact hlive .slot
    · exact hst.disjoint ho
  · intro cls o ho
    rw [g.nextObject]
    cases cls with
    | block =>
      rw [hblock, List.mem_cons] at ho
      rcases ho with rfl | ho
      · by_contra hge
        exact hst.outside (.inr (Nat.le_of_not_lt hge)) hu
      · exact hst.created ho
    | slot =>
      rw [hslot] at ho
      exact hst.created ho
  · rintro o a ho ⟨hmem, hne⟩
    rcases (g.spare_iff o).1 ho with hsp | heq
    · exact hst.outside hsp hmem
    · exact hne heq
  · intro o ho i
    by_cases hou : o = u
    · rw [hou, g.sub_self, HoleSeq.nth_nil]
    · have hsp := ((g.spare_iff o).1 ho).resolve_right hou
      have hob : o ≠ b := by
        rintro rfl
        exact hst.outside hsp hb
      rw [g.subs o hob hou]
      exact hst.blank_subs hsp i
  · intro o type ho
    rw [g.items]
    rcases (g.spare_iff o).1 ho with hsp | rfl
    · exact hst.blank_items type hsp
    · exact hempty type

lemma shrunk (g : Spliced t t' p u b) (hempty : ∀ type, t.items type u = []) :
    Shrunk t t' T (cutCover T u) := by
  refine
    { bits := g.bits
      items := g.items
      stamp := g.stamp
      rootBlock := g.rootBlock
      universeNet := g.universeNet
      mem := And.left
      spare := fun ho => (g.spare_iff _).2 (.inl ho)
      gone := ?_ }
  intro c a hc hn
  obtain rfl : c = u := by
    by_contra hne
    exact hn ⟨hc, hne⟩
  exact ⟨(g.spare_iff c).2 (.inr rfl), hempty⟩

end Spliced

/-! ## The blocks that are removed -/

/-- The block `U` is removed by a recycling that starts at length `n` on the way to `p`: no block
from `U` down to there carries a net or a range, and none below `U` that ends at a boundary has
anything but the blocks on the way. -/
structure Absorbed (t : Tree) (T : Coverage) (p : InetPrefix) (n : ℕ)
    (U : DbObject) : Prop where
  mem : T U p.stream
  le : t.bits U ≤ n
  empty : ∀ A, T A p.stream → t.bits U ≤ t.bits A → t.bits A ≤ n →
    t.items .net A = [] ∧ t.items .range A = []
  lone : ∀ A, T A p.stream → t.bits U < t.bits A → t.bits A ≤ n → t.bits A % 4 = 0 →
    ∀ c a, T A a → T c a → t.bits A < t.bits c → T c p.stream ∧ t.bits c ≤ n

section Chain

variable {U : DbObject}

section

variable (h : Shape fam t r T)

include h

/-- A block of the tree that ends at a boundary ends at the boundary of its parent. -/
theorem Shape.bits_eq_boundary_iff (hu : T u p.stream) (hur : u ≠ r) (hsuper : t.super u = some b) :
    T b p.stream ∧ t.bits b < t.bits u ∧ t.bits u ≤ boundary (t.bits b) ∧
      (t.bits u = boundary (t.bits b) ↔ t.bits u % 4 = 0) := by
  rcases h.cover.parent_of_mem hu hur with ⟨b', hb', hb, hchild⟩
  obtain rfl : b' = b := Option.some.inj (hb'.symm.trans hsuper)
  have hlt : t.bits b' < t.bits u := (h.cover.child_mem hb hchild).2.2
  have hle := (h.fits hb hchild).2.2
  refine ⟨hb, hlt, hle, ?_⟩
  rw [boundary_eq] at *
  omega

/-- Above `u`, the blocks on the way to `p` are at most as long as the parent of `u`. -/
theorem Shape.bits_le_parent (hu : T u p.stream) (hur : u ≠ r) (hsuper : t.super u = some b)
    {A : DbObject} (hA : T A p.stream) (hle : t.bits A ≤ t.bits u) (hne : A ≠ u) :
    t.bits A ≤ t.bits b := by
  refine h.cover.len_le_parent hu hA hsuper hur (lt_of_le_of_ne hle fun heq => hne ?_)
  exact h.cover.unique hA hu heq

lemma Absorbed.of_cut (hbits : t'.bits = t.bits) (hitems : t'.items = t.items) (hu : T u p.stream)
    (hur : u ≠ r) (hsuper : t.super u = some b) (hempty : ∀ type, t.items type u = [])
    (hleaf : t.bits u % 4 = 0 → ∀ s, ¬ t.Sub u s) (hU : Absorbed t' (cutCover T u) p (t.bits b) U) :
    Absorbed t T p (t.bits u) U := by
  rcases h.bits_eq_boundary_iff hu hur hsuper with ⟨hb, hlt, _⟩
  have hUle := hU.le
  rw [hbits] at hUle
  refine ⟨hU.mem.1, le_trans hUle (le_of_lt hlt), ?_, ?_⟩
  · intro A hA hUA hAu
    by_cases hne : A = u
    · subst hne
      exact ⟨hempty .net, hempty .range⟩
    · have hrest := hU.empty A ⟨hA, hne⟩
      rw [hbits, hitems] at hrest
      exact hrest hUA (h.bits_le_parent hu hur hsuper hA hAu hne)
  · intro A hA hUA hAu hnat c a hAa hca hAc
    by_cases hne : A = u
    · subst hne
      -- A block at a boundary is only removed when nothing lies below it.
      rcases h.cover.exists_child_of_lt hAa hca hAc with ⟨s, hs, _⟩
      exact absurd ⟨_, hs⟩ (hleaf hnat s)
    · have hcu : c ≠ u → T c p.stream ∧ t.bits c ≤ t.bits u := by
        intro hcu
        have hrest := hU.lone A ⟨hA, hne⟩
        rw [hbits] at hrest
        rcases hrest hUA (h.bits_le_parent hu hur hsuper hA hAu hne) hnat c a ⟨hAa, hne⟩
          ⟨hca, hcu⟩ hAc with ⟨hc, hcb⟩
        exact ⟨hc.1, le_trans hcb (le_of_lt hlt)⟩
      by_cases hc : c = u
      · subst hc
        exact ⟨hu, le_refl _⟩
      · exact hcu hc

/-- A block at a boundary that is removed has nothing below it. -/
theorem Absorbed.no_subs (hu : T u p.stream) (hU : Absorbed t T p (t.bits u) U) (hne : U ≠ u)
    (hnat : t.bits u % 4 = 0) (s : DbObject) : ¬ t.Sub u s := by
  intro hs
  rcases h.mem_of_sub hu hs with ⟨a, hua, _, hsa, hus⟩
  have hlt : t.bits U < t.bits u :=
    lt_of_le_of_ne hU.le fun heq => hne (h.cover.unique hU.mem hu heq)
  have := (hU.lone u hu hlt (le_refl _) hnat s a hua hsa hus).2
  omega

lemma Absorbed.cut (hbits : t'.bits = t.bits) (hitems : t'.items = t.items) (hu : T u p.stream)
    (hur : u ≠ r) (hsuper : t.super u = some b) (hU : Absorbed t T p (t.bits u) U) (hne : U ≠ u) :
    t.items .net b = [] ∧ t.items .range b = [] ∧
      Absorbed t' (cutCover T u) p (t.bits b) U := by
  rcases h.bits_eq_boundary_iff hu hur hsuper with ⟨hb, hlt, _⟩
  have hUb : t.bits U ≤ t.bits b := h.bits_le_parent hu hur hsuper hU.mem hU.le hne
  have hbempty := hU.empty b hb hUb (le_of_lt hlt)
  refine ⟨hbempty.1, hbempty.2, ⟨⟨hU.mem, hne⟩, ?_, ?_, ?_⟩⟩
  · rw [hbits]
    exact hUb
  · rintro A ⟨hA, _⟩ hUA hAb
    rw [hbits] at hUA hAb
    rw [hitems]
    exact hU.empty A hA hUA (le_trans hAb (le_of_lt hlt))
  · rintro A ⟨hA, _⟩ hUA hAb hnat c a ⟨hAa, _⟩ ⟨hca, hcu⟩ hAc
    rw [hbits] at hUA hAb hnat hAc ⊢
    rcases hU.lone A hA hUA (le_trans hAb (le_of_lt hlt)) hnat c a hAa hca hAc with
      ⟨hc, hcle⟩
    exact ⟨⟨hc, hcu⟩, h.bits_le_parent hu hur hsuper hc hcle hcu⟩

end

/-- A block without nets and ranges is not the root and carries nothing at all. -/
theorem Filing.empty_of_bare (h : Filing fam t r T dir) {a : BitStream} (hb : T b a)
    (hlt : t.bits b < fam.bits) (hnet : t.items .net b = []) (hrange : t.items .range b = []) :
    b ≠ r ∧ ∀ type, t.items type b = [] := by
  refine ⟨?_, fun type => ?_⟩
  · rintro rfl
    rcases h.universe_first with ⟨v, _, hfirst⟩
    rw [inetFirstItem, hnet] at hfirst
    cases hfirst
  · cases type with
    | net => exact hnet
    | node => exact h.nodes_eq_nil_of_block hb hlt
    | range => exact hrange

/-- When the prefix is aligned at every block that is removed, recycling an empty block keeps the
content of the family. -/
theorem inetGcBlock_shrunk (fuel : ℕ) (h : Filing fam t r T dir) (hu : T u p.stream) (hur : u ≠ r)
    (hempty : ∀ type, t.items type u = []) (hfuel : t.bits u < fuel)
    (hclear : ∀ U, Absorbed t T p (t.bits u) U → p.AlignedAt (t.bits U)) :
    ∃ T', Filing fam (inetGcBlock fam p fuel t ⟨t.bits u, u⟩) r T' dir ∧
      Shrunk t (inetGcBlock fam p fuel t ⟨t.bits u, u⟩) T T' ∧
      (t.bits u % 4 ≠ 0 → ∀ a, ¬ T' u a) := by
  induction fuel generalizing t T u with
  | zero => exact absurd hfuel (Nat.not_lt_zero _)
  | succ fuel ih =>
    rcases h.shape.cover.parent_of_mem hu hur with ⟨b, hsuper, _, _⟩
    rcases h.shape.bits_eq_boundary_iff hu hur hsuper with ⟨hb, hlt, hle, hnat⟩
    have hself : Absorbed t T p (t.bits u) u := by
      have hsame : ∀ A, T A p.stream → t.bits u ≤ t.bits A → t.bits A ≤ t.bits u → A = u :=
        fun A hA h₁ h₂ => h.shape.cover.unique hA hu (le_antisymm h₂ h₁)
      refine ⟨hu, le_refl _, ?_, ?_⟩
      · intro A hA h₁ h₂
        rw [hsame A hA h₁ h₂]
        exact ⟨hempty .net, hempty .range⟩
      · intro A _ h₁ h₂
        omega
    rcases inetGcBlock_succ fam p fuel hsuper hlt hle with
      ⟨hend, _, hgc⟩ | ⟨hleaf, t', g, hgc⟩
    · rw [hgc]
      exact ⟨T, h, Shrunk.refl t T, fun hodd => absurd (hnat.1 hend) hodd⟩
    · have hfile : Filing fam t' r (cutCover T u) dir :=
        h.shrunk (g.shrunk hempty)
          (g.shape h.shape hu hur hsuper (hclear u hself) hleaf)
          (g.storage h.storage hu hb hempty)
      rw [hgc]
      by_cases hstop : t.items .net b ≠ [] ∨ t.items .range b ≠ []
      · rw [if_pos hstop]
        exact ⟨_, hfile, g.shrunk hempty, fun _ a hc => hc.2 rfl⟩
      · rw [if_neg hstop, ← g.bits]
        have hbare : t'.items .net b = [] ∧ t'.items .range b = [] := by
          rw [g.items]
          exact not_or.1 hstop |>.imp not_not.1 not_not.1
        have hbu : b ≠ u := by
          rintro rfl
          exact lt_irrefl _ hlt
        have hfit := h.shape.bits_le hu
        rcases hfile.empty_of_bare ⟨hb, hbu⟩ (by rw [g.bits]; omega) hbare.1 hbare.2 with
          ⟨hbr, hbempty⟩
        rcases ih hfile ⟨hb, hbu⟩ hbr hbempty (by rw [g.bits]; omega) (by
          intro U hU
          rw [g.bits] at hU ⊢
          exact hclear U (hU.of_cut h.shape g.bits g.items hu hur hsuper hempty
            (fun hmod => hleaf (hnat.2 hmod)))) with ⟨T', hfile', hsh, _⟩
        exact ⟨T', hfile', (g.shrunk hempty).trans hsh, fun _ a hc => (hsh.mem hc).2 rfl⟩

/-! ## Misaligned removals -/

/-- A block on the way to `p`, whose upper part of the tree is intact, has an entry for a recycled
block. -/
structure Dangling (t t' : Tree) (T : Coverage) (p : InetPrefix)
    (c s : DbObject) : Prop where
  bits : t'.bits = t.bits
  rootBlock : t'.rootBlock = t.rootBlock
  mem : T c p.stream
  above : ∀ d, T d p.stream → t.bits d < t.bits c → t'.subs d = t.subs d
  entry : t'.Sub c s
  spare : t'.Spare s

/-- A tree with such an entry is not well formed. -/
theorem Dangling.not_storage {c s : DbObject} (g : Dangling t t' T p c s) (h : Shape fam t r T)
    (hblocks : BlockTree fam t') : ¬ Storage t' (fun b a => t'.Covers a b) := by
  intro hst
  -- The blocks down to `c` are still met on the way down.
  have hcovers : ∀ n a d, T c a → T d a → t.bits d ≤ n → t.bits d ≤ t.bits c →
      t'.Covers a d := by
    intro n a
    induction n with
    | zero =>
      intro d _ hd h0 _
      rw [h.cover.eq_root_of_len_eq_zero hd (Nat.le_zero.1 h0)]
      exact .root (g.rootBlock.trans h.root)
    | succ n ih =>
      intro d hc hd hn hdc
      by_cases hroot : d = r
      · subst hroot
        exact .root (g.rootBlock.trans h.root)
      · rcases h.cover.parent_of_mem hd hroot with ⟨e, _, he, hchild⟩
        have hlt : t.bits e < t.bits d := (h.cover.child_mem he hchild).2.2
        have hep : T e p.stream := h.cover.mem_of_le he hc (by rw [layout_len]; omega) g.mem
        refine .sub (ih e hc he (by omega) (by omega)) ?_
        rw [g.bits, g.above e hep (by omega)]
        exact hchild
  rcases g.entry with ⟨i, hi⟩
  have hc := hcovers _ p.stream c g.mem g.mem (le_refl _) (le_refl _)
  have hlt := (hblocks.entry hc hi).2.1
  rcases exists_window p.stream (t'.bits c) (subBits (t'.bits c)) hlt with ⟨a, hag, hw⟩
  rw [g.bits] at hag
  have hca : T c a := h.cover.mem_of_agree g.mem hag.symm
  have hcov := hcovers _ a c hca hca (le_refl _) (le_refl _)
  exact hst.outside g.spare (.sub hcov (hw.symm ▸ hi))

/-- The first index of a block that is not aligned comes before the index of the prefix. -/
theorem Shape.exists_entry_lt (h : Shape fam t r T) (hu : T u p.stream) (hur : u ≠ r)
    (hsuper : t.super u = some b) (halign : ¬ p.AlignedAt (t.bits u)) :
    ∃ i, i < subIndex p (t.bits b) ∧ nth (t.subs b) i = some u := by
  rcases h.cover.parent_of_mem hu hur with ⟨b', hb', hb, hchild⟩
  obtain rfl : b' = b := Option.some.inj (hb'.symm.trans hsuper)
  rcases h.bits_eq_boundary_iff hu hur hsuper with ⟨_, hlt, hle, _⟩
  have hpos : 0 < 2 ^ (boundary (t.bits b') - t.bits u) := Nat.pow_pos (by norm_num)
  have hmod := mt (InetPrefix.AlignedAt.subIndex_mod_iff hlt hle).1 halign
  have hentry : nth (t.subs b') (subIndex p (t.bits b')) = some u := by
    rw [subIndex_eq_window]
    exact hchild
  have hrun := h.blockTree.run ((h.covers_iff b' p.stream).2 hb) hentry
  generalize 2 ^ (boundary (t.bits b') - t.bits u) = k at hpos hmod hrun
  generalize subIndex p (t.bits b') = index at hmod hrun
  have hdiv := Nat.div_add_mod index k
  refine ⟨k * (index / k), by omega, (hrun _).2 ?_⟩
  rw [Nat.mul_div_cancel_left _ hpos]

/-- Removing a block at a misaligned position leaves an entry for a recycled block behind: either
here, or further up, because every block that is removed next is misaligned as well. -/
theorem inetGcBlock_dangling (fuel : ℕ) (h : Filing fam t r T dir) {σ : Tree}
    (hu : T u p.stream) (hur : u ≠ r) (halign : ¬ p.AlignedAt (t.bits u))
    (hbits : σ.bits = t.bits) (hitems : σ.items = t.items) (hroot : σ.rootBlock = t.rootBlock)
    (hsuper : ∀ c, T c p.stream → t.bits c ≤ t.bits u → σ.super c = t.super c)
    (hsubs : ∀ c, T c p.stream → t.bits c < t.bits u → σ.subs c = t.subs c)
    (hlong : ∀ s, σ.Sub u s → t.bits u < t.bits s) (hfuel : t.bits u < fuel) :
    ∃ c s, Dangling t (inetGcBlock fam p fuel σ ⟨t.bits u, u⟩) T p c s := by
  induction fuel generalizing σ u with
  | zero => exact absurd hfuel (Nat.not_lt_zero _)
  | succ fuel ih =>
    rcases h.shape.cover.parent_of_mem hu hur with ⟨b, hparent, _, _⟩
    rcases h.shape.bits_eq_boundary_iff hu hur hparent with ⟨hb, hlt, hle, hnat⟩
    have hσ : σ.super u = some b := (hsuper u hu (le_refl _)).trans hparent
    have hodd : t.bits u % 4 ≠ 0 := fun hmod => halign (.inl hmod)
    have hinner : t.bits u < boundary (t.bits b) :=
      lt_of_le_of_ne hle fun heq => hodd (hnat.1 heq)
    have hstep := inetGcBlock_succ fam p fuel hσ (by rw [hbits]; exact hlt)
      (by rw [hbits]; exact hle)
    rw [hbits, hitems] at hstep
    rcases hstep with ⟨hend, _⟩ | ⟨_, σ', g, hgc⟩
    · exact absurd hend (ne_of_lt hinner)
    · rcases h.shape.exists_entry_lt hu hur hparent halign with ⟨i, hi, hentry⟩
      have hkept : nth (σ'.subs b) i = some u := by
        rw [g.sub_parent, hbits, if_neg (by omega), hsubs b hb hlt]
        exact hentry
      have hleft : Dangling t σ' T p b u := by
        refine ⟨g.bits.trans hbits, g.rootBlock.trans hroot, hb, ?_, ⟨i, hkept⟩,
          (g.spare_iff u).2 (.inr rfl)⟩
        intro d hd hdb
        have hdne : d ≠ b := by
          rintro rfl
          exact lt_irrefl _ hdb
        have hdu : d ≠ u := by
          rintro rfl
          omega
        rw [g.subs d hdne hdu]
        exact hsubs d hd (by omega)
      rw [hgc]
      by_cases hstop : t.items .net b ≠ [] ∨ t.items .range b ≠ []
      · rw [if_pos hstop]
        exact ⟨b, u, hleft⟩
      · rw [if_neg hstop]
        have hbare := not_or.1 hstop |>.imp not_not.1 not_not.1
        have hfit := h.shape.bits_le hu
        have hbr := (h.empty_of_bare hb (by omega) hbare.1 hbare.2).1
        rcases h.shape.cover.parent_of_mem hb hbr with ⟨d, hdsuper, _, _⟩
        rcases h.shape.bits_eq_boundary_iff hb hbr hdsuper with ⟨hd, hdlt, hdle, hdnat⟩
        have hsuper' : ∀ c, T c p.stream → t.bits c ≤ t.bits b → σ'.super c = t.super c := by
          intro c hc hcb
          rw [g.super_out c]
          · exact hsuper c hc (by omega)
          · intro j hj
            have := hlong c ⟨j, hj⟩
            omega
        by_cases hmod : t.bits b % 4 = 0
        · -- A block at a boundary stays, because the entry keeps it in use.
          cases fuel with
          | zero => omega
          | succ fuel =>
            have hσ' : σ'.super b = some d := (hsuper' b hb (le_refl _)).trans hdsuper
            have hstep' := inetGcBlock_succ fam p fuel hσ'
              (by rw [g.bits, hbits]; exact hdlt) (by rw [g.bits, hbits]; exact hdle)
            rw [g.bits, hbits] at hstep'
            rcases hstep' with ⟨_, _, hgc'⟩ | ⟨hleaf, _⟩
            · rw [hgc']
              exact ⟨b, u, hleft⟩
            · exact absurd ⟨i, hkept⟩ (hleaf (hdnat.2 hmod) u)
        · refine ih hb hbr ?_ (g.bits.trans hbits) (g.items.trans hitems)
            (g.rootBlock.trans hroot) hsuper' ?_ ?_ (by omega)
          · -- The bit that misaligns `u` lies before the same boundary.
            rintro (hmod' | hoff)
            · exact hmod hmod'
            · refine halign (.inr fun k hk hk' => hoff k (by omega) ?_)
              rw [← boundary_of_lt (le_of_lt hlt) hinner]
              exact hk'
          · intro c hc hcb
            have hcne : c ≠ b := by
              rintro rfl
              exact lt_irrefl _ hcb
            have hcu : c ≠ u := by
              rintro rfl
              omega
            rw [g.subs c hcne hcu]
            exact hsubs c hc (by omega)
          · rintro s ⟨j, hj⟩
            rw [g.sub_parent] at hj
            split at hj
            · exact lt_trans hlt (hlong s ⟨_, hj⟩)
            · rw [hsubs b hb hlt] at hj
              exact (h.shape.super_of_entry hb hj).2

/-- When the prefix is not aligned at some block that is removed, the tree does not stay well
formed. -/
theorem inetGcBlock_broken (fuel : ℕ) (h : Filing fam t r T dir) (hu : T u p.stream) (hur : u ≠ r)
    (hempty : ∀ type, t.items type u = []) (hfuel : t.bits u < fuel)
    (hU : Absorbed t T p (t.bits u) U) (halign : ¬ p.AlignedAt (t.bits U))
    (hblocks : BlockTree fam (inetGcBlock fam p fuel t ⟨t.bits u, u⟩)) :
    ¬ Storage (inetGcBlock fam p fuel t ⟨t.bits u, u⟩)
      (fun b a => (inetGcBlock fam p fuel t ⟨t.bits u, u⟩).Covers a b) := by
  induction fuel generalizing t T u with
  | zero => exact absurd hfuel (Nat.not_lt_zero _)
  | succ fuel ih =>
    by_cases hself : p.AlignedAt (t.bits u)
    · -- This removal is fine, and the recycling goes on above it.
      have hne : U ≠ u := by
        rintro rfl
        exact halign hself
      rcases h.shape.cover.parent_of_mem hu hur with ⟨b, hsuper, _, _⟩
      rcases h.shape.bits_eq_boundary_iff hu hur hsuper with ⟨hb, hlt, hle, hnat⟩
      have hbu : b ≠ u := by
        rintro rfl
        exact lt_irrefl _ hlt
      rcases inetGcBlock_succ fam p fuel hsuper hlt hle with
        ⟨hend, ⟨s, hs⟩, _⟩ | ⟨hleaf, t', g, hgc⟩
      · exact absurd hs (hU.no_subs h.shape hu hne (hnat.1 hend) s)
      · rcases hU.cut h.shape g.bits g.items hu hur hsuper hne with
          ⟨hbnet, hbrange, hU'⟩
        have hfile : Filing fam t' r (cutCover T u) dir :=
          h.shrunk (g.shrunk hempty) (g.shape h.shape hu hur hsuper hself hleaf)
            (g.storage h.storage hu hb hempty)
        have hfit := h.shape.bits_le hu
        rcases hfile.empty_of_bare ⟨hb, hbu⟩ (by rw [g.bits]; omega)
          (by rw [g.items]; exact hbnet) (by rw [g.items]; exact hbrange) with ⟨hbr, hbempty⟩
        have hgo : ¬ (t.items .net b ≠ [] ∨ t.items .range b ≠ []) := by
          simp [hbnet, hbrange]
        rw [hgc, if_neg hgo, ← g.bits] at hblocks ⊢
        rw [← g.bits] at hU' halign
        exact ih hfile ⟨hb, hbu⟩ hbr hbempty (by rw [g.bits]; omega) hU' halign hblocks
    · rcases inetGcBlock_dangling (fuel + 1) h hu hur hself rfl rfl rfl (fun _ _ _ => rfl)
        (fun _ _ _ => rfl) (by
          rintro s ⟨i, hi⟩
          exact (h.shape.super_of_entry hu hi).2) hfuel with ⟨c, s, hdang⟩
      exact hdang.not_storage h.shape hblocks

end Chain

end Inet
end Unameit
