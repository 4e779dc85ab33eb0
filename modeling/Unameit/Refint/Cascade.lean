import Mathlib.Logic.Relation
import Unameit.Refint.References

/-!
# Refint — what a deletion deletes

The deletion of an item deletes the items that point at it through `Cascade` attributes, the items
that point at those, and so on.  `Calls` follows the calls of `Udb_Delete` and lists the items in the
order in which they are marked.  From this list, and from the fact that afterwards deleted items are
only pointed at through `Block` attributes, it follows which items are deleted and how the values of
the other items change.
-/

namespace Unameit
namespace Refint

open List

variable {n : ℕ} {l : DbObject} {I J K : Items}

/-! ## The calls of one deletion -/

def State.marked (σ : State) (o : DbObject) : State :=
  { dropLoopCheck σ o with items := σ.items.markDeleted o }

inductive Rounds (call : State → DbObject → State → List DbObject → Prop) (rhs : DbObject) :
    State → State → List DbObject → Prop
  | done {σ : State} : σ.relations.links.head rhs .cascade = none → Rounds call rhs σ σ []
  | round {σ υ τ : State} {r : RelId} {l : DbObject} {log rest : List DbObject} :
      σ.relations.links.head rhs .cascade = some r → σ.relations.lhs r = some l →
      call σ l υ log → Rounds call rhs υ τ rest → Rounds call rhs σ τ (log ++ rest)

/-- A call of `Udb_Delete_Object` that succeeds, with the items that it marks: the item itself, and
those that the calls for its `Cascade` queue mark. -/
def Marks (S : Schema) (del : State → DbObject → Except Stop State)
    (call : State → DbObject → State → List DbObject → Prop) (σ : State) (o : DbObject) (τ : State)
    (log : List DbObject) : Prop :=
  udbDeleteObject S del σ o = .ok τ ∧ ∃ σ₁ σ₂ σ₃ rest,
    dropLhsRelations S σ o = .ok σ₁ ∧ Rounds call o (σ₁.marked o) σ₂ rest ∧
    nullifyLoop S o ((σ₂.relations.created S).length + 1) σ₂ = .ok σ₃ ∧
    τ.items = σ₃.items ∧ log = o :: rest

def Calls (S : Schema) : ℕ → State → DbObject → State → List DbObject → Prop
  | 0, _, _, _, _ => False
  | fuel + 1, σ, o, τ, log => σ.items.Alive o ∧ Marks S (udbDelete S fuel) (Calls S fuel) σ o τ log

variable {S : Schema} {σ τ υ : State} {o : DbObject} {log rest : List DbObject} {fuel : ℕ}
  {del : State → DbObject → Except Stop State}
  {call : State → DbObject → State → List DbObject → Prop}

lemma rounds_of_cascadeLoop (hcall : ∀ {σ l τ}, del σ l = .ok τ → ∃ log, call σ l τ log)
    (hok : cascadeLoop del o n σ = .ok τ) : ∃ rest, Rounds call o σ τ rest := by
  induction n generalizing σ with
  | zero => cases hok
  | succ n ih =>
    unfold cascadeLoop at hok
    cases hr : σ.relations.links.head o .cascade with
    | none =>
      simp only [hr, Except.ok.injEq] at hok
      subst hok
      exact ⟨[], .done hr⟩
    | some r =>
      simp only [hr] at hok
      cases hl : σ.relations.lhs r with
      | none =>
        simp only [hl] at hok
        cases hok
      | some l =>
        simp only [hl] at hok
        cases hdel : del σ l with
        | error e =>
          simp only [hdel] at hok
          cases hok
        | ok υ =>
          simp only [hdel] at hok
          obtain ⟨log, hlog⟩ := hcall hdel
          obtain ⟨rest, hrest⟩ := ih hok
          exact ⟨log ++ rest, .round hr hl hlog hrest⟩

lemma marks_of_udbDeleteObject (hcall : ∀ {σ l τ}, del σ l = .ok τ → ∃ log, call σ l τ log)
    (hok : udbDeleteObject S del σ o = .ok τ) : ∃ log, Marks S del call σ o τ log := by
  have hobject := hok
  unfold udbDeleteObject at hok
  cases hdrop : dropLhsRelations S σ o with
  | error e =>
    simp only [hdrop] at hok
    cases hok
  | ok σ₁ =>
    simp only [hdrop] at hok
    change processRhsRelations S del (σ₁.marked o) o = .ok τ at hok
    unfold processRhsRelations at hok
    cases hloop : cascadeLoop del o ((σ₁.marked o).items.objects.length + 1) (σ₁.marked o) with
    | error e =>
      simp only [hloop] at hok
      cases hok
    | ok σ₂ =>
      simp only [hloop] at hok
      obtain ⟨rest, hrest⟩ := rounds_of_cascadeLoop hcall hloop
      cases hnull : nullifyLoop S o ((σ₂.relations.created S).length + 1) σ₂ with
      | error e =>
        simp only [hnull] at hok
        cases hok
      | ok σ₃ =>
        simp only [hnull, Except.ok.injEq] at hok
        refine ⟨o :: rest, hobject, σ₁, σ₂, σ₃, rest, hdrop, hrest, hnull, ?_, rfl⟩
        rw [← hok]
        split_ifs
        · rfl
        · rfl

lemma calls_of_udbDelete (hok : udbDelete S fuel σ o = .ok τ) : ∃ log, Calls S fuel σ o τ log := by
  induction fuel generalizing σ o τ with
  | zero => cases hok
  | succ fuel ih =>
    unfold udbDelete at hok
    by_cases halive : σ.items.Alive o
    · split_ifs at hok
      obtain ⟨log, hlog⟩ := marks_of_udbDeleteObject ih hok
      exact ⟨log, halive, hlog⟩
    · rw [if_pos halive] at hok
      cases hok

/-! ## Values -/

/-- Of the attribute values, only those of `Nullify` attributes change, and these lose nothing but
elements of `gone`. -/
structure Trims (S : Schema) (I J : Items) (gone : DbObject → Prop) : Prop where
  cls : J.cls = I.cls
  kept : ∀ {l a}, S.action I a l ≠ .nullify → J.value l a = I.value l a
  trimmed : ∀ l a, ∃ p : DbObject → Bool, (∀ x, ¬ gone x → p x = true) ∧
    J.value l a = (I.value l a).filter p

namespace Trims

variable {I J K : Items} {gone gone' : DbObject → Prop}

lemma of_value (hcls : J.cls = I.cls) (h : J.value = I.value) : Trims S I J gone where
  cls := hcls
  kept _ := by rw [h]
  trimmed l a := ⟨fun _ => true, fun _ _ => rfl, by rw [h, List.filter_true]⟩

lemma trans (h : Trims S I J gone) (h' : Trims S J K gone') :
    Trims S I K fun x => gone x ∨ gone' x where
  cls := h'.cls.trans h.cls
  kept {l a} hact := by
    have hact' : S.action J a l ≠ .nullify := by
      unfold Schema.action
      rw [h.cls]
      exact hact
    rw [h'.kept hact', h.kept hact]
  trimmed l a := by
    obtain ⟨p, hp, hvalue⟩ := h.trimmed l a
    obtain ⟨q, hq, hvalue'⟩ := h'.trimmed l a
    refine ⟨fun x => q x && p x, fun x hx => ?_, ?_⟩
    · rw [not_or] at hx
      simp [hp x hx.1, hq x hx.2]
    · rw [hvalue', hvalue, filter_filter]

lemma mono (h : Trims S I J gone) (himp : ∀ x, gone x → gone' x) : Trims S I J gone' where
  cls := h.cls
  kept := h.kept
  trimmed l a := by
    obtain ⟨p, hp, hvalue⟩ := h.trimmed l a
    exact ⟨p, fun x hx => hp x fun hgone => hx (himp x hgone), hvalue⟩

end Trims

/-- `Nullify_Attribute` takes the item out of one value. -/
theorem Sound.trims_nullifyAttribute (h : Sound S σ) {a : CString}
    (hact : S.action σ.items a l = .nullify) (hmem : (a, l, o) ∈ σ.items.mirror) :
    Trims S σ.items (nullifyAttribute S σ.items l a o) (· = o) := by
  have hself : (nullifyAttribute S σ.items l a o).value l a =
      (σ.items.value l a).filter fun x => x ≠ o := by
    unfold nullifyAttribute
    simp only [Function.update_self]
    cases hkind : S.kind a with
    | vector => rfl
    | scalar =>
      refine (filter_eq_nil_iff.2 fun x hx => ?_).symm
      simpa using eq_of_mem_of_length (h.typed.scalar hkind) hx hmem.2
  have hother : ∀ {m b}, ¬ (m = l ∧ b = a) →
      (nullifyAttribute S σ.items l a o).value m b = σ.items.value m b := by
    intro m b hne
    unfold nullifyAttribute
    by_cases hm : m = l
    · subst hm
      have hb : b ≠ a := fun hb => hne ⟨rfl, hb⟩
      simp [hb]
    · simp [hm]
  refine { cls := rfl, kept := fun {m b} hkept => hother ?_, trimmed := fun m b => ?_ }
  · rintro ⟨rfl, rfl⟩
    exact hkept hact
  · by_cases hmb : m = l ∧ b = a
    · obtain ⟨rfl, rfl⟩ := hmb
      exact ⟨fun x => decide (x ≠ o), fun x hx => by simpa using hx, hself⟩
    · exact ⟨fun _ => true, fun _ _ => rfl, by rw [hother hmb, filter_true]⟩

lemma Sound.trims_nullifyLoop (h : Sound S σ) (hok : nullifyLoop S o n σ = .ok τ) :
    Trims S σ.items τ.items (· = o) ∧ τ.items.deleted = σ.items.deleted ∧
      τ.items.objects = σ.items.objects := by
  induction n generalizing σ with
  | zero => cases hok
  | succ n ih =>
    unfold nullifyLoop at hok
    cases hr : σ.relations.links.head o .nullify with
    | none =>
      simp only [hr, Except.ok.injEq] at hok
      subst hok
      exact ⟨Trims.of_value rfl rfl, rfl, rfl⟩
    | some r =>
      obtain ⟨l, R, hl, hR, hsound, -, -⟩ := h.nullify hr
      obtain ⟨l', hl', -, hact, hmem⟩ := h.relations.of_head hr
      obtain rfl : l = l' := Option.some.inj (hl.symm.trans hl')
      simp only [hr, hl, hR] at hok
      obtain ⟨htrims, hsame⟩ := ih hsound hok
      exact ⟨((h.trims_nullifyAttribute hact hmem).trans htrims).mono (by simp), hsame⟩

/-! ## What calls delete -/

structure Removes (S : Schema) (I J : Items) (log : List DbObject) : Prop
    extends Trims S I J (· ∈ log) where
  objects : J.objects = I.objects
  deleted : ∀ x, J.deleted x = true ↔ I.deleted x = true ∨ x ∈ log
  alive : ∀ x ∈ log, I.Alive x
  nodup : log.Nodup

lemma Removes.trans (h : Removes S I J log) (h' : Removes S J K rest) :
    Removes S I K (log ++ rest) where
  toTrims := (h.toTrims.trans h'.toTrims).mono fun x hx => List.mem_append.2 hx
  objects := h'.objects.trans h.objects
  deleted x := by rw [h'.deleted, h.deleted, List.mem_append, or_assoc]
  alive x hx := by
    rcases mem_append.1 hx with hx | hx
    · exact h.alive x hx
    · obtain ⟨hobj, hdel⟩ := h'.alive x hx
      refine ⟨h.objects ▸ hobj, Bool.eq_false_iff.2 fun htrue => ?_⟩
      rw [(h.deleted x).2 (.inl htrue)] at hdel
      cases hdel
  nodup := by
    refine nodup_append.2 ⟨h.nodup, h'.nodup, fun x hx y hy hxy => ?_⟩
    subst hxy
    -- what the first calls have deleted is not undeleted when the others start
    have hdel := (h'.alive x hy).2
    rw [(h.deleted x).2 (.inr hx)] at hdel
    cases hdel

/-- Taking deleted items out of values afterwards. -/
theorem Removes.trim (h : Removes S I J log) (ho : o ∈ log) (htrims : Trims S J K (· = o))
    (hdeleted : K.deleted = J.deleted) (hobjects : K.objects = J.objects) : Removes S I K log where
  toTrims := (h.toTrims.trans htrims).mono fun x hx => hx.elim id fun hx => hx ▸ ho
  objects := hobjects.trans h.objects
  deleted x := by rw [hdeleted, h.deleted]
  alive := h.alive
  nodup := h.nodup

def Cascades (S : Schema) (I : Items) (l o : DbObject) : Prop :=
  ∃ a, (a, l, o) ∈ I.mirror ∧ S.action I a l = .cascade

lemma Shrinks.cascades (h : Shrinks σ τ) (hl : Cascades S τ.items l o) :
    Cascades S σ.items l o := by
  obtain ⟨a, hmem, hact⟩ := hl
  rw [h.action S] at hact
  exact ⟨a, h.mirror hmem, hact⟩

structure Accounts (S : Schema) (σ τ : State) (o : DbObject) (log : List DbObject) : Prop where
  removes : Removes S σ.items τ.items log
  reaches : ∀ x ∈ log, Relation.ReflTransGen (Cascades S σ.items) x o

lemma Sound.removes_marked (h : Sound S σ) (ho : σ.items.Alive o) {σ₁ : State}
    (hdrop : dropLhsRelations S σ o = .ok σ₁) :
    Sound S (σ₁.marked o) ∧ Shrinks σ (σ₁.marked o) ∧
      Removes S σ.items (σ₁.marked o).items [o] := by
  obtain ⟨σ', hσ', hsound, hshrinks, hitems, -⟩ := h.drop ho
  obtain rfl : σ₁ = σ' := Except.ok.inj (hdrop.symm.trans hσ')
  refine ⟨hsound, hshrinks, ?_⟩
  have hmarked : (σ₁.marked o).items = σ.items.markDeleted o := by
    rw [← hitems]
    rfl
  rw [hmarked]
  exact
    { toTrims := Trims.of_value rfl rfl
      objects := rfl
      deleted := fun x => by
        by_cases hx : x = o
        · simp [Items.markDeleted, hx]
        · simp [Items.markDeleted, hx]
      alive := fun x hx => mem_singleton.1 hx ▸ ho
      nodup := nodup_singleton o }

lemma Calls.sound (h : Sound S σ) (hcall : Calls S fuel σ o τ log)
    (hfuel : σ.items.aliveCount < fuel) : Sound S τ ∧ Shrinks σ τ := by
  cases fuel with
  | zero => cases hcall
  | succ fuel =>
    obtain ⟨halive, hok, -⟩ := hcall
    have hspec := udbDeleteObject_spec (D := Set.univ) udbDelete_spec h
      (fun _ _ _ _ _ => .inl trivial) halive (Nat.le_of_lt_succ hfuel)
    rw [hok] at hspec
    exact ⟨hspec.1, hspec.2.2.1⟩

section

variable
  (hcall : ∀ {σ l τ log}, Calls S fuel σ l τ log → Sound S σ → σ.items.aliveCount < fuel → Accounts S σ τ l log)

include hcall

/-- The rounds of the loop, if the calls have been accounted for. -/
theorem Rounds.accounts (hrounds : Rounds (Calls S fuel) o σ τ log) (h : Sound S σ)
    (hfuel : σ.items.aliveCount < fuel) : Sound S τ ∧ Accounts S σ τ o log := by
  induction hrounds with
  | done hhead =>
    refine ⟨h, ⟨?_, by simp⟩⟩
    exact
      { toTrims := Trims.of_value rfl rfl
        objects := rfl
        deleted := fun x => by simp
        alive := by simp
        nodup := nodup_nil }
  | @round σ υ τ r l log rest hhead hl hlog _ ih =>
    obtain ⟨hsound, hshrinks⟩ := hlog.sound h hfuel
    have hfirst := hcall hlog h hfuel
    obtain ⟨hsound', hrest⟩ := ih hsound (hshrinks.aliveCount_le.trans_lt hfuel)
    refine ⟨hsound', hfirst.removes.trans hrest.removes, fun x hx => ?_⟩
    rcases mem_append.1 hx with hx | hx
    · -- `l` is at the head of the queue, so it points at `o`
      obtain ⟨l', hl', -, hact, hmem⟩ := h.relations.of_head hhead
      obtain rfl : l = l' := Option.some.inj (hl.symm.trans hl')
      exact (hfirst.reaches x hx).tail ⟨_, hmem, hact⟩
    · exact Relation.ReflTransGen.mono (fun _ _ => hshrinks.cascades) _ _ (hrest.reaches x hx)

lemma Marks.accounts (hmarks : Marks S (udbDelete S fuel) (Calls S fuel) σ o τ log) (h : Sound S σ)
    (halive : σ.items.Alive o) (hfuel : σ.items.aliveCount ≤ fuel) : Accounts S σ τ o log := by
  obtain ⟨-, σ₁, σ₂, σ₃, rest, hdrop, hrounds, hnull, hitems, rfl⟩ := hmarks
  obtain ⟨hmarked, hshrinks, hremoves⟩ := h.removes_marked halive hdrop
  have hlt : (σ₁.marked o).items.aliveCount < σ.items.aliveCount :=
    hshrinks.aliveCount_lt halive ((hremoves.deleted o).2 (.inr mem_cons_self))
  obtain ⟨hsound₂, hrest⟩ := hrounds.accounts hcall hmarked (by omega)
  obtain ⟨htrims, hdeleted, hobjects⟩ := hsound₂.trims_nullifyLoop hnull
  refine ⟨?_, fun x hx => ?_⟩
  · rw [hitems]
    exact (hremoves.trans hrest.removes).trim mem_cons_self htrims hdeleted hobjects
  · rcases mem_cons.1 hx with rfl | hx
    · exact Relation.ReflTransGen.refl
    · exact Relation.ReflTransGen.mono (fun _ _ => hshrinks.cascades) _ _ (hrest.reaches x hx)

end

lemma Calls.accounts (hcall : Calls S fuel σ o τ log) (h : Sound S σ)
    (hfuel : σ.items.aliveCount < fuel) : Accounts S σ τ o log := by
  induction fuel generalizing σ o τ log with
  | zero => cases hcall
  | succ fuel ih => exact hcall.2.accounts ih h hcall.1 (Nat.le_of_lt_succ hfuel)

/-! ## Whole deletions -/

/-- Starting from a database whose relations mirror its values and in which no undeleted item points
at a deleted one, `Udb_Delete_Object` comes to an end, unless an item of a read only class would have
to be deleted.  It marks each of the items from which the item can be reached through `Cascade`
attributes once, and no others.  From the values of the `Nullify` attributes of the other items just
these items are taken out, and no other value changes. -/
theorem delete_cascade_exact (S : Schema) (σ : State) (o : DbObject) (fuel : ℕ) (h : Sound S σ)
    (hgraph : NoDangling σ) (ho : σ.items.Alive o) (hfuel : σ.items.aliveCount ≤ fuel) :
    (∃ uuid cname, udbDeleteObject S (udbDelete S fuel) σ o = .error (.ereadonly uuid cname)) ∨
      ∃ τ log, udbDeleteObject S (udbDelete S fuel) σ o = .ok τ ∧
        Marks S (udbDelete S fuel) (Calls S fuel) σ o τ log ∧ log.Nodup ∧
        (∀ x, x ∈ log ↔ σ.items.Alive x ∧ τ.items.deleted x = true) ∧
        (∀ x, x ∈ log ↔ Relation.ReflTransGen (Cascades S σ.items) x o) ∧
        (∀ {l a x}, τ.items.Alive l → S.action σ.items a l = .nullify → x ∈ τ.items.value l a →
          τ.items.deleted x = false) ∧
        (∀ {l a}, τ.items.Alive l → S.action σ.items a l = .nullify →
          τ.items.value l a = (σ.items.value l a).filter fun x => x ∉ log) ∧
        ∀ {l a}, S.action σ.items a l ≠ .nullify → τ.items.value l a = σ.items.value l a := by
  have hspec := udbDeleteObject_spec udbDelete_spec h hgraph.tidy ho hfuel
  cases hres : udbDeleteObject S (udbDelete S fuel) σ o with
  | error e =>
    rw [hres] at hspec
    obtain ⟨uuid, cname, rfl⟩ := hspec
    exact .inl ⟨uuid, cname, rfl⟩
  | ok τ =>
    rw [hres] at hspec
    obtain ⟨-, htidy, hshrinks, hdel⟩ := hspec
    obtain ⟨log, hmarks⟩ := marks_of_udbDeleteObject calls_of_udbDelete hres
    obtain ⟨hremoves, hreaches⟩ := hmarks.accounts Calls.accounts h ho hfuel
    have hdeleted : ∀ x, x ∈ log ↔ σ.items.Alive x ∧ τ.items.deleted x = true := by
      intro x
      refine ⟨fun hx => ⟨hremoves.alive x hx, (hremoves.deleted x).2 (.inr hx)⟩, ?_⟩
      rintro ⟨halive, hx⟩
      refine ((hremoves.deleted x).1 hx).resolve_left fun htrue => ?_
      rw [halive.2] at htrue
      cases htrue
    -- deleted items are only pointed at through `Block` attributes
    have hblock : ∀ {l a x}, τ.items.Alive l → x ∈ τ.items.value l a →
        τ.items.deleted x = true → S.action σ.items a l = .block := by
      intro l a x hl hx hdelx
      rcases htidy a l x ⟨hl, hx⟩ hdelx with hempty | ⟨hact, -⟩
      · cases hempty
      · rwa [hshrinks.action S] at hact
    have hnullify : ∀ {l a x}, τ.items.Alive l → S.action σ.items a l = .nullify →
        x ∈ τ.items.value l a → τ.items.deleted x = false := by
      intro l a x hl hact hx
      refine Bool.eq_false_iff.2 fun hdelx => ?_
      rw [hblock hl hx hdelx] at hact
      cases hact
    refine .inr ⟨τ, log, rfl, hmarks, hremoves.nodup, hdeleted, fun x => ⟨hreaches x, ?_⟩,
      hnullify, ?_, hremoves.kept⟩
    · intro hx
      induction hx using Relation.ReflTransGen.head_induction_on with
      | refl => exact (hdeleted o).2 ⟨ho, hdel⟩
      | @head x y hstep _ hy =>
        -- otherwise `x` would still point at the deleted `y`
        obtain ⟨a, ⟨hx, hvalue⟩, hact⟩ := hstep
        refine (hdeleted x).2 ⟨hx, ?_⟩
        by_contra hkeep
        have hl : τ.items.Alive x := ⟨hshrinks.objects ▸ hx.1, by simpa using hkeep⟩
        have hmem : y ∈ τ.items.value x a := by
          rw [hremoves.kept (by rw [hact]; decide)]
          exact hvalue
        rw [hblock hl hmem ((hdeleted y).1 hy).2] at hact
        cases hact
    · intro l a hl hact
      obtain ⟨p, hp, hvalue⟩ := hremoves.trimmed l a
      rw [hvalue]
      refine filter_congr fun x hx => ?_
      by_cases hlog : x ∈ log
      · -- an element that is kept has not been deleted
        have hpx : p x = false := by
          refine Bool.eq_false_iff.2 fun hpx => ?_
          have hmem : x ∈ τ.items.value l a := by
            rw [hvalue]
            exact mem_filter.2 ⟨hx, hpx⟩
          have hfalse := hnullify hl hact hmem
          rw [((hdeleted x).1 hlog).2] at hfalse
          cases hfalse
        simp [hpx, hlog]
      · simp [hp x hlog, hlog]

def cycle : State :=
  run (oneAttribute .cascade) State.empty (pointing ++ [.update 1 [(['p'], [2])]])

/-- The deletion of one of them comes to an end, and deletes both. -/
theorem delete_cascade_exact_cycle :
    ∃ (τ : State) (log : List DbObject),
      udbDeleteObject (oneAttribute .cascade) (udbDelete (oneAttribute .cascade) 2) cycle 1 = .ok τ ∧
        log.Nodup ∧ 1 ∈ log ∧ 2 ∈ log := by
  have hsound : Sound (oneAttribute .cascade) cycle := Sound.empty.run _
  have hdeleted : ∀ o, cycle.items.deleted o = false :=
    hsound.deleted_eq_false (by decide +kernel)
  have hcount : cycle.items.aliveCount ≤ 2 := by decide +kernel
  rcases delete_cascade_exact (oneAttribute .cascade) cycle 1 2 hsound
    (fun _ _ o _ _ => hdeleted o) (by decide +kernel) hcount with
    ⟨uuid, cname, herror⟩ | ⟨τ, log, hok, -, hnodup, -, hreaches, -⟩
  · have hok : (udbDeleteObject (oneAttribute .cascade) (udbDelete (oneAttribute .cascade) 2)
        cycle 1).toOption.isSome = true := by decide +kernel
    rw [herror] at hok
    cases hok
  · have hstep : Cascades (oneAttribute .cascade) cycle.items 2 1 :=
      ⟨['p'], ⟨by decide +kernel, by decide +kernel⟩, rfl⟩
    exact ⟨τ, log, hok, hnodup, (hreaches 1).2 .refl, (hreaches 2).2 (.single hstep)⟩

end Refint
end Unameit
