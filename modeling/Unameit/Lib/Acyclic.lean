import Mathlib.Logic.Relation
import Mathlib.Data.List.Chain

/-!
# Acyclic — graphs without cycles

A graph is acyclic when no node is reached from itself.  This stays so when edges are taken away,
and when all new edges start at one node that no edge leads to.

A search that has run into a cycle can report it as a list of its nodes; `LoopList` is such a list
in the order in which a recursive search unwinds.
-/

namespace Unameit

open Relation

def Acyclic {V : Type*} (r : V → V → Prop) : Prop :=
  ∀ x, ¬ TransGen r x x

variable {V : Type*} {r s : V → V → Prop}

lemma Acyclic.mono (h : Acyclic s) (hsub : ∀ x y, r x y → s x y) : Acyclic r :=
  fun x hx => h x (TransGen.mono hsub x x hx)

variable {z x y : V} {l : List V}

/-- New edges from a node that no edge leads to do not close a cycle. -/
theorem Acyclic.add_source (h : Acyclic r) (hsub : ∀ x y, s x y → x ≠ z → r x y)
    (hin : ∀ x, ¬ s x z) : Acyclic s := by
  -- Only the first node of a path can be `z`.
  have hpath : ∀ {x y}, TransGen s x y → x ≠ z → TransGen r x y ∧ y ≠ z := by
    intro x y hxy hx
    induction hxy with
    | single hedge => exact ⟨.single (hsub _ _ hedge hx), fun he => hin _ (he ▸ hedge)⟩
    | tail _ hedge ih => exact ⟨.tail ih.1 (hsub _ _ hedge ih.2), fun he => hin _ (he ▸ hedge)⟩
  intro x hx
  have hne : x ≠ z := by
    rintro rfl
    obtain ⟨y, _, hy⟩ := TransGen.tail'_iff.1 hx
    exact hin y hy
  exact h x (hpath hx hne).1

/-! ## Cycles -/

/-- The edges of a cycle join nodes that are on cycles. -/
theorem transGen_on_cycle (hxy : TransGen r x y) (hyx : TransGen r y x) :
    TransGen (fun v w => r v w ∧ TransGen r v v ∧ TransGen r w w) x y := by
  induction hxy with
  | single hedge => exact .single ⟨hedge, .head hedge hyx, .tail hyx hedge⟩
  | tail hxv hedge ih =>
    have hvx : TransGen r _ x := .head hedge hyx
    exact .tail (ih hvx) ⟨hedge, hvx.trans hxv, hyx.trans (.tail hxv hedge)⟩

/-- A node from which every path ends is on no cycle. -/
theorem not_transGen_of_acc (h : Acc (fun y x => r x y) x) : ¬ TransGen r x x := by
  induction h with
  | intro x _ ih =>
    intro hx
    obtain ⟨y, hxy, hyx⟩ := TransGen.head'_iff.1 hx
    exact ih y hxy (TransGen.tail'_iff.2 ⟨x, hyx, hxy⟩)

/-- The list has each node of a cycle once, and every node is listed before the one that leads to
it; the first node leads to the last one. -/
structure LoopList (r : V → V → Prop) (l : List V) : Prop where
  nodup : l.Nodup
  linked : l.IsChain fun x y => r y x
  closed : ∃ x y, l.head? = some x ∧ l.getLast? = some y ∧ r x y

lemma reflTransGen_of_linked (h : (x :: l).IsChain fun x y => r y x) :
    ∀ y ∈ x :: l, ReflTransGen r y x := by
  induction l generalizing x with
  | nil =>
    intro y hy
    rw [List.mem_singleton.1 hy]
  | cons z l ih =>
    rcases List.isChain_cons_cons.1 h with ⟨hzx, hrest⟩
    intro y hy
    rcases List.mem_cons.1 hy with rfl | hy
    · exact .refl
    · exact .tail (ih hrest y hy) hzx

/-- The last node of a chain leads to all of them. -/
theorem reflTransGen_of_getLast? (h : l.IsChain fun x y => r y x) (hz : l.getLast? = some z) :
    ∀ y ∈ l, ReflTransGen r z y := by
  induction l with
  | nil => simp
  | cons x l ih =>
    intro y hy
    rcases List.mem_cons.1 hy with rfl | hy
    · exact reflTransGen_of_linked h z (List.mem_of_getLast? hz)
    · cases l with
      | nil => cases hy
      | cons x' l => exact ih (List.isChain_cons_cons.1 h).2 (by simpa using hz) y hy

lemma LoopList.transGen (h : LoopList r (x :: l)) : TransGen r x x := by
  rcases h.closed with ⟨x', y, hx, hy, hedge⟩
  obtain rfl : x = x' := Option.some.inj hx
  exact TransGen.head' hedge (reflTransGen_of_linked h.linked y (List.mem_of_getLast? hy))

lemma LoopList.reached (h : LoopList r (x :: l)) (hy : y ∈ x :: l) : ReflTransGen r x y := by
  rcases h.closed with ⟨x', z, hx, hz, hedge⟩
  obtain rfl : x = x' := Option.some.inj hx
  exact .head hedge (reflTransGen_of_getLast? h.linked hz y hy)

end Unameit
