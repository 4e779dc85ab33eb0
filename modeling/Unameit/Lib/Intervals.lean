import Mathlib.Data.List.Pairwise
import Mathlib.Tactic.Linarith

/-!
# Intervals — sets of integers as lists of closed intervals

A list of pairs `(start, last)` stands for the integers that lie in one of the closed intervals
`start .. last`.  It is *canonical* when every interval is nonempty and the intervals ascend with
a gap between any two neighbours, so that no two of them could be merged.

A change of a canonical list replaces a short run of neighbours by another one; `Canonical.splice`
says when the result is canonical again, and `covers_append` what it stands for.
-/

namespace Unameit

open List

abbrev ClosedInterval := ℤ × ℤ

namespace ClosedInterval

def Covers (l : List ClosedInterval) (i : ℤ) : Prop :=
  ∃ a ∈ l, a.1 ≤ i ∧ i ≤ a.2

/-- There is a gap between the intervals of the two lists, which come in this order. -/
def Apart (l l' : List ClosedInterval) : Prop :=
  ∀ a ∈ l, ∀ b ∈ l', a.2 + 1 < b.1

/-- Nonempty intervals in ascending order, with gaps between them. -/
structure Canonical (l : List ClosedInterval) : Prop where
  proper : ∀ a ∈ l, a.1 ≤ a.2
  apart : l.Pairwise fun a b => a.2 + 1 < b.1

variable {l l' pre mid mid' post : List ClosedInterval} {a b : ClosedInterval} {i : ℤ}

@[simp] lemma covers_nil : ¬ Covers [] i := by
  rintro ⟨a, ha, _⟩
  cases ha

lemma covers_cons : Covers (a :: l) i ↔ (a.1 ≤ i ∧ i ≤ a.2) ∨ Covers l i := by
  simp [Covers, or_and_right, exists_or]

lemma covers_append : Covers (l ++ l') i ↔ Covers l i ∨ Covers l' i := by
  simp [Covers, or_and_right, exists_or]

@[simp] lemma covers_singleton : Covers [a] i ↔ a.1 ≤ i ∧ i ≤ a.2 := by
  simp [Covers]

namespace Canonical

@[simp] lemma nil : Canonical [] :=
  ⟨by simp, List.Pairwise.nil⟩

@[simp] lemma cons_iff :
    Canonical (a :: l) ↔ a.1 ≤ a.2 ∧ (∀ b ∈ l, a.2 + 1 < b.1) ∧ Canonical l := by
  constructor
  · rintro ⟨hproper, hapart⟩
    rw [pairwise_cons] at hapart
    rw [forall_mem_cons] at hproper
    exact ⟨hproper.1, hapart.1, hproper.2, hapart.2⟩
  · rintro ⟨hle, hgap, h⟩
    exact ⟨forall_mem_cons.2 ⟨hle, h.proper⟩, pairwise_cons.2 ⟨hgap, h.apart⟩⟩

lemma tail (h : Canonical (a :: l)) : Canonical l := (cons_iff.1 h).2.2

/-- The intervals after the first one start beyond the gap. -/
theorem not_covers_tail (h : Canonical (a :: l)) (hi : i ≤ a.2 + 1) : ¬ Covers l i := by
  rintro ⟨b, hb, hbi, _⟩
  have hgap := (cons_iff.1 h).2.1 b hb
  omega

lemma append_iff : Canonical (l ++ l') ↔ Canonical l ∧ Canonical l' ∧ Apart l l' := by
  constructor
  · rintro ⟨hproper, hapart⟩
    rcases pairwise_append.1 hapart with ⟨hl, hl', hgap⟩
    exact ⟨⟨fun a ha => hproper a (mem_append_left _ ha), hl⟩,
      ⟨fun a ha => hproper a (mem_append_right _ ha), hl'⟩, hgap⟩
  · rintro ⟨hl, hl', hgap⟩
    refine ⟨fun a ha => ?_, pairwise_append.2 ⟨hl.apart, hl'.apart, hgap⟩⟩
    rcases mem_append.1 ha with ha | ha
    · exact hl.proper a ha
    · exact hl'.proper a ha

/-- A run of intervals may be replaced by any other one that keeps the gaps around it. -/
theorem splice (h : Canonical (pre ++ mid ++ post)) (hmid : Canonical mid')
    (hpre : Apart pre mid') (hpost : Apart mid' post) : Canonical (pre ++ mid' ++ post) := by
  rcases append_iff.1 h with ⟨hleft, hright, hgap⟩
  rcases append_iff.1 hleft with ⟨hfirst, _, _⟩
  refine append_iff.2 ⟨append_iff.2 ⟨hfirst, hmid, hpre⟩, hright, ?_⟩
  intro a ha b hb
  rcases mem_append.1 ha with ha | ha
  · exact hgap a (mem_append_left _ ha) b hb
  · exact hpost a ha b hb

/-- The gaps are kept when the new run stays within the old one. -/
theorem splice_within (h : Canonical (pre ++ mid ++ post)) (hmid : Canonical mid')
    (hlow : pre = [] ∨ ∀ b ∈ mid', ∃ c ∈ mid, c.1 ≤ b.1)
    (hhigh : post = [] ∨ ∀ b ∈ mid', ∃ c ∈ mid, b.2 ≤ c.2) : Canonical (pre ++ mid' ++ post) := by
  rcases append_iff.1 h with ⟨hleft, _, hpost⟩
  rcases append_iff.1 hleft with ⟨_, _, hpre⟩
  refine h.splice hmid ?_ ?_
  · intro a ha b hb
    rcases hlow with rfl | hlow
    · cases ha
    rcases hlow b hb with ⟨c, hc, hle⟩
    have hgap := hpre a ha c hc
    omega
  · intro b hb a ha
    rcases hhigh with rfl | hhigh
    · cases ha
    rcases hhigh b hb with ⟨c, hc, hle⟩
    have hgap := hpost c (mem_append_right _ hc) a ha
    omega

lemma apart_of_lt (h : Canonical l) {m n : ℕ} (hm : l[m]? = some a) (hn : l[n]? = some b)
    (hlt : m < n) : a.2 + 1 < b.1 := by
  rcases List.getElem?_eq_some_iff.1 hm with ⟨hm', rfl⟩
  rcases List.getElem?_eq_some_iff.1 hn with ⟨hn', rfl⟩
  exact List.pairwise_iff_getElem.1 h.apart m n hm' hn' hlt

end Canonical

end ClosedInterval
end Unameit
