import Mathlib.Tactic

/-!
# Spans — closed spans of a linear order, listed by where they start

Every element of a list has a lowest and a highest point, `lo` and `hi`.  If the list ascends by
`lo`, two of its elements meet if and only if some element meets the one right before it.
-/

namespace Unameit
namespace Spans

open List

variable {α ρ : Type*} [LinearOrder α] (lo hi : ρ → α)

def Meet (r r' : ρ) : Prop :=
  lo r ≤ hi r' ∧ lo r' ≤ hi r

/-- Distinct, nonempty spans in the order in which they start. -/
structure Ascending (l : List ρ) : Prop where
  nodup : l.Nodup
  proper : ∀ r ∈ l, lo r ≤ hi r
  ascending : l.Pairwise fun r r' => lo r ≤ lo r'

/-- A span starts before the one listed right before it has ended. -/
def Crowded (l : List ρ) : Prop :=
  ∃ done r rest, l = done ++ r :: rest ∧ ∃ p ∈ done.getLast?, lo r ≤ hi p

variable {lo hi} {l : List ρ} {r : ρ}

namespace Ascending

lemma cons_iff : Ascending lo hi (r :: l) ↔
    (r ∉ l ∧ lo r ≤ hi r ∧ ∀ r' ∈ l, lo r ≤ lo r') ∧ Ascending lo hi l := by
  constructor
  · rintro ⟨hnodup, hproper, hasc⟩
    exact ⟨⟨(nodup_cons.1 hnodup).1, hproper r mem_cons_self,
        (pairwise_cons.1 hasc).1⟩,
      (nodup_cons.1 hnodup).2, fun r' hr' => hproper r' (mem_cons_of_mem _ hr'),
      (pairwise_cons.1 hasc).2⟩
  · rintro ⟨⟨hr, hlohi, hle⟩, hnodup, hproper, hasc⟩
    exact ⟨nodup_cons.2 ⟨hr, hnodup⟩, forall_mem_cons.2 ⟨hlohi, hproper⟩,
      pairwise_cons.2 ⟨hle, hasc⟩⟩

/-- Without crowding, every span ends before any later one starts. -/
theorem pairwise_of_not_crowded (h : Ascending lo hi l) (hl : ¬ Crowded lo hi l) :
    l.Pairwise fun r r' => hi r < lo r' := by
  induction l with
  | nil => exact List.Pairwise.nil
  | cons r l ih =>
    obtain ⟨⟨-, -, -⟩, htail⟩ := cons_iff.1 h
    have hrest : l.Pairwise fun r r' => hi r < lo r' := by
      refine ih htail ?_
      rintro ⟨done, r', rest, rfl, p, hp, hle⟩
      refine hl ⟨r :: done, r', rest, rfl, p, ?_, hle⟩
      rw [getLast?_cons, Option.mem_def.1 hp]
      rfl
    refine pairwise_cons.2 ⟨?_, hrest⟩
    cases l with
    | nil => simp
    | cons q l =>
      have hq : hi r < lo q := by
        by_contra hle
        exact hl ⟨[r], q, l, rfl, r, rfl, not_lt.1 hle⟩
      -- what comes after `q` starts after the end of `q`
      refine forall_mem_cons.2 ⟨hq, fun r' hr' => ?_⟩
      calc hi r < lo q := hq
        _ ≤ hi q := htail.proper q mem_cons_self
        _ < lo r' := (pairwise_cons.1 hrest).1 r' hr'

lemma exists_meet_iff (h : Ascending lo hi l) :
    (∃ r ∈ l, ∃ r' ∈ l, r ≠ r' ∧ Meet lo hi r r') ↔ Crowded lo hi l := by
  constructor
  · rintro ⟨r, hr, r', hr', hne, hmeet⟩
    by_contra hl
    have hapart : l.Pairwise fun x y => hi x < lo y ∨ hi y < lo x :=
      (h.pairwise_of_not_crowded hl).imp .inl
    have : Std.Symm fun x y : ρ => hi x < lo y ∨ hi y < lo x := ⟨fun _ _ => Or.symm⟩
    rcases hapart.forall hr hr' hne with hlt | hlt
    · exact absurd hmeet.2 (not_le.2 hlt)
    · exact absurd hmeet.1 (not_le.2 hlt)
  · rintro ⟨done, r, rest, rfl, p, hp, hle⟩
    have hpdone : p ∈ done := mem_of_getLast? hp
    have hpl : p ∈ done ++ r :: rest := mem_append_left _ hpdone
    have hrl : r ∈ done ++ r :: rest := mem_append_right _ mem_cons_self
    have hasc := (pairwise_append.1 h.ascending).2.2 p hpdone r mem_cons_self
    refine ⟨p, hpl, r, hrl, ?_, hasc.trans (h.proper r hrl), hle⟩
    rintro rfl
    exact (nodup_append.1 h.nodup).2.2 p hpdone p mem_cons_self rfl

end Ascending
end Spans
end Unameit
