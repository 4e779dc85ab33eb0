import Mathlib.Data.List.Nodup
import Mathlib.Logic.Relation

/-!
# Parents — chains of parents in a forest

A forest is given by a partial function `parent`, and the ancestors of a node are listed from its
parent to the top.  `Above.graft` is the rule for forests that are built up one edge at a time: when
a node that had no parent gets one, the ancestors of the new parent are appended to the lists of the
node and of everything below it.
-/

namespace Unameit

open List

variable {α : Type*}

/-- `Above parent a l`: the ancestors of `a` are the elements of `l`, nearest first. -/
inductive Above (parent : α → Option α) : α → List α → Prop
  | top {a : α} : parent a = none → Above parent a []
  | step {a b : α} {l : List α} : parent a = some b → Above parent b l → Above parent a (b :: l)

/-- `b` is `a` or one of its ancestors. -/
def UpTo (parent : α → Option α) (a b : α) : Prop :=
  Relation.ReflTransGen (fun x y => parent x = some y) a b

namespace UpTo

variable {parent : α → Option α} {a b c : α}

lemma refl : UpTo parent a a := Relation.ReflTransGen.refl

lemma head (h : parent a = some b) (hb : UpTo parent b c) : UpTo parent a c :=
  Relation.ReflTransGen.head h hb

lemma trans (hab : UpTo parent a b) (hbc : UpTo parent b c) : UpTo parent a c :=
  Relation.ReflTransGen.trans hab hbc

/-- One step of the way up: the node itself, or something at or above its parent. -/
theorem iff_head : UpTo parent a c ↔ a = c ∨ ∃ b, parent a = some b ∧ UpTo parent b c :=
  Relation.ReflTransGen.cases_head_iff

lemma mono {parent' : α → Option α} (h : ∀ x y, parent x = some y → parent' x = some y)
    (hab : UpTo parent a b) : UpTo parent' a b :=
  Relation.ReflTransGen.mono h a b hab

/-- All nodes on the way up are below the one where it ends. -/
theorem to_top (hc : parent c = none) (hab : UpTo parent a b) (hac : UpTo parent a c) :
    UpTo parent b c := by
  induction hab using Relation.ReflTransGen.head_induction_on with
  | refl => exact hac
  | head hstep _ ih =>
    rcases iff_head.1 hac with rfl | ⟨d, hd, hdc⟩
    · simp [hc] at hstep
    · rw [hstep] at hd
      exact ih (Option.some.inj hd ▸ hdc)

lemma top_unique (hb : parent b = none) (hc : parent c = none) (hab : UpTo parent a b)
    (hac : UpTo parent a c) : b = c := by
  rcases iff_head.1 (to_top hc hab hac) with heq | ⟨d, hd, -⟩
  · exact heq
  · simp [hb] at hd

end UpTo

namespace Above

variable {parent : α → Option α} {a b x : α} {l l' : List α}

section

variable (h : Above parent a l)

include h

lemma unique (h' : Above parent a l') : l = l' := by
  induction h generalizing l' with
  | top ha =>
    cases h' with
    | top _ => rfl
    | step ha' _ => simp [ha] at ha'
  | step ha _ ih =>
    cases h' with
    | top ha' => simp [ha] at ha'
    | step ha' hb' =>
      obtain rfl : _ = _ := Option.some.inj (ha.symm.trans ha')
      rw [ih hb']

/-- What follows an ancestor in the list are its own ancestors. -/
theorem split (hx : x ∈ l) : ∃ l₁ l₂, l = l₁ ++ x :: l₂ ∧ Above parent x l₂ := by
  induction h with
  | top _ => simp at hx
  | @step a b l _ hb ih =>
    rcases mem_cons.1 hx with rfl | hx
    · exact ⟨[], l, rfl, hb⟩
    · obtain ⟨l₁, l₂, rfl, hx₂⟩ := ih hx
      exact ⟨b :: l₁, l₂, rfl, hx₂⟩

/-- A node with finitely many ancestors is not one of them. -/
theorem self_not_mem : a ∉ l := by
  intro ha
  obtain ⟨l₁, l₂, hl, ha⟩ := h.split ha
  have hlen := congrArg length (h.unique ha)
  simp only [hl, length_append, length_cons] at hlen
  omega

lemma nodup : (a :: l).Nodup := by
  induction h with
  | top _ => simp
  | step ha hb ih => exact nodup_cons.2 ⟨(Above.step ha hb).self_not_mem, ih⟩

lemma mem_iff_upTo : x ∈ a :: l ↔ UpTo parent a x := by
  induction h with
  | top ha =>
    rw [UpTo.iff_head]
    simp [ha, eq_comm]
  | step ha _ ih =>
    rw [UpTo.iff_head, mem_cons, ih]
    simp [ha, eq_comm]

end

/-- In the list of a node, each entry is followed by ancestors of it. -/
theorem pairwise {above : α → List α} (hab : ∀ x, Above parent x (above x)) (a : α) :
    (a :: above a).Pairwise fun x y => y ∈ above x := by
  suffices hsuf : ∀ {a l}, Above parent a l → (a :: l).Pairwise fun x y => y ∈ above x from
    hsuf (hab a)
  intro a l h
  induction h with
  | top _ => simp
  | step ha hb ih =>
    refine pairwise_cons.2 ⟨fun y hy => ?_, ih⟩
    rwa [(hab _).unique (.step ha hb)]

/-- Heights that fall from a node to its parent fall along the whole list. -/
theorem height_lt {height : α → ℕ} (hlt : ∀ a b, parent a = some b → height b < height a)
    (h : Above parent a l) : ∀ x ∈ l, height x < height a := by
  induction h with
  | top _ => simp
  | @step a b l ha _ ih =>
    intro x hx
    have hba := hlt a b ha
    rcases mem_cons.1 hx with rfl | hx
    · exact hba
    · exact Nat.lt_trans (ih x hx) hba

/-- A node without a parent is the last one of every list it is on. -/
theorem height_le_of_top {height : α → ℕ}
    (hlt : ∀ a b, parent a = some b → height b < height a) (h : Above parent a l)
    (hb : parent b = none) (hmem : b ∈ a :: l) : ∀ x ∈ a :: l, height b ≤ height x := by
  induction h with
  | top _ =>
    intro x hx
    obtain rfl := mem_singleton.1 hmem
    obtain rfl := mem_singleton.1 hx
    exact Nat.le_refl _
  | @step a c l ha hc ih =>
    have hba : b ≠ a := by
      rintro rfl
      simp [hb] at ha
    have hbc : b ∈ c :: l := (mem_cons.1 hmem).resolve_left hba
    intro x hx
    rcases mem_cons.1 hx with rfl | hx
    · exact Nat.le_trans (ih hbc c mem_cons_self) (Nat.le_of_lt (hlt _ _ ha))
    · exact ih hbc x hx

/-- A new edge from `b` to `c`: the list of `c` is appended where `b` is on the way up. -/
theorem graft [DecidableEq α] {c : α} {lc : List α} (hb : parent b = none)
    (hc : Above parent c lc) (hbc : b ∉ c :: lc) (h : Above parent a l) :
    Above (Function.update parent b (some c)) a
      (l ++ if a = b ∨ b ∈ l then c :: lc else []) := by
  -- the list of `c` is not affected, since `b` is not on it
  have hkeep : ∀ {x lx}, Above parent x lx → b ∉ x :: lx →
      Above (Function.update parent b (some c)) x lx := by
    intro x lx hx
    induction hx with
    | @top x hx =>
      intro hbx
      have hne : x ≠ b := by
        rintro rfl
        simp at hbx
      exact .top (by rw [Function.update_of_ne hne, hx])
    | @step x y ly hx _ ih =>
      intro hbx
      have hne : x ≠ b := by
        rintro rfl
        simp at hbx
      exact .step (by rw [Function.update_of_ne hne, hx])
        (ih fun hby => hbx (mem_cons_of_mem _ hby))
  induction h with
  | @top a ha =>
    by_cases hab : a = b
    · subst hab
      simpa using Above.step (Function.update_self ..) (hkeep hc hbc)
    · have hne : ¬ (a = b ∨ b ∈ []) := by simp [hab]
      rw [if_neg hne]
      exact .top (by rw [Function.update_of_ne hab, ha])
  | @step a d l ha hd ih =>
    have hab : a ≠ b := by
      rintro rfl
      simp [hb] at ha
    have hcond : (a = b ∨ b ∈ d :: l) ↔ (d = b ∨ b ∈ l) := by
      simp [hab, eq_comm]
    simp only [hcond]
    exact .step (by rw [Function.update_of_ne hab, ha]) ih

end Above

end Unameit
