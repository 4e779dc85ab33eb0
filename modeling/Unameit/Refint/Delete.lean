import Mathlib.Data.Finset.Card
import Mathlib.Data.Set.Insert
import Unameit.Refint.Sound

/-!
# Refint — deletion

The deletion of an item drops its own relations, marks it as deleted and then works through the
queues of the relations that point at it.  Cascading calls the deletion recursively, from within the
loop over a queue that the recursive calls shorten.

While the queues of an item are being worked through, other items still point at it.  `Tidy σ D`
allows this for the items `D` whose deletion is under way; any other deleted item is only pointed at
through `Block` attributes, and then it is in the table of reference checks.
-/

namespace Unameit
namespace Refint

open List

variable {o l m x : DbObject} {a b : CString} {S : Schema} {D : Set DbObject} {r : RelId}
  {σ τ : State} {fuel n : ℕ} {del : State → DbObject → Except Stop State}

open Items

/-- Deleted items outside `D` are only pointed at through `Block` attributes, and are checked at
commit if they are. -/
def Tidy (S : Schema) (σ : State) (D : Set DbObject) : Prop :=
  ∀ a l o, (a, l, o) ∈ σ.items.mirror → σ.items.deleted o = true →
    o ∈ D ∨ S.action σ.items a l = .block ∧ o ∈ σ.refTable

/-- What deletion does to the state as a whole: items become deleted, values shrink, and loop
checks are only dropped together with their items. -/
structure Shrinks (σ τ : State) : Prop where
  objects : τ.items.objects = σ.items.objects
  cls : τ.items.cls = σ.items.cls
  deleted : ∀ {o}, σ.items.deleted o = true → τ.items.deleted o = true
  value : ∀ {l a o}, o ∈ τ.items.value l a → o ∈ σ.items.value l a
  refTable : ∀ {o}, o ∈ σ.refTable → o ∈ τ.refTable
  added : ∀ {o}, o ∈ τ.refTable → o ∈ σ.refTable ∨ τ.items.deleted o = true
  loops : ∀ {e}, e ∈ σ.loopTable → τ.items.deleted e.2 = false → e ∈ τ.loopTable
  loopTable : ∀ {e}, e ∈ τ.loopTable → e ∈ σ.loopTable

namespace Shrinks

variable {υ : State}

lemma refl : Shrinks σ σ :=
  { objects := rfl
    cls := rfl
    deleted := id
    value := id
    refTable := id
    added := .inl
    loops := fun he _ => he
    loopTable := id }

lemma trans (h : Shrinks σ τ) (h' : Shrinks τ υ) : Shrinks σ υ :=
  { objects := h'.objects.trans h.objects
    cls := h'.cls.trans h.cls
    deleted := fun ho => h'.deleted (h.deleted ho)
    value := fun ho => h.value (h'.value ho)
    refTable := fun ho => h'.refTable (h.refTable ho)
    added := fun ho => by
      rcases h'.added ho with ho | ho
      · exact (h.added ho).imp_right h'.deleted
      · exact .inr ho
    loops := fun he hdel => by
      refine h'.loops (h.loops he ?_) hdel
      by_contra hne
      rw [h'.deleted (by simpa using hne)] at hdel
      cases hdel
    loopTable := fun he => h.loopTable (h'.loopTable he) }

/-- An item that is undeleted afterwards was so before. -/
theorem alive (h : Shrinks σ τ) (ho : τ.items.Alive o) : σ.items.Alive o := by
  refine ⟨h.objects ▸ ho.1, ?_⟩
  by_contra hne
  have hdel := h.deleted (o := o) (by simpa using hne)
  rw [ho.2] at hdel
  cases hdel

lemma mirror (h : Shrinks σ τ) (ho : (a, l, o) ∈ τ.items.mirror) : (a, l, o) ∈ σ.items.mirror :=
  ⟨h.alive ho.1, h.value ho.2⟩

lemma action (h : Shrinks σ τ) (S : Schema) : S.action τ.items = S.action σ.items := by
  funext a l
  simp only [Schema.action, h.cls]

/-- Tidiness is kept when no further item is deleted. -/
theorem tidy (h : Shrinks σ τ)
    (hdeleted : ∀ {o}, τ.items.deleted o = true → σ.items.deleted o = true) (htidy : Tidy S σ D) :
    Tidy S τ D := by
  intro a l o hmem hdel
  rcases htidy a l o (h.mirror hmem) (hdeleted hdel) with hD | ⟨hblock, href⟩
  · exact .inl hD
  · exact .inr ⟨by rw [h.action]; exact hblock, h.refTable href⟩

end Shrinks

def Returns (Q : State → Prop) : Except Stop State → Prop
  | .ok τ => Q τ
  | .error e => ∃ uuid cname, e = .ereadonly uuid cname

lemma Returns.imp {Q Q' : State → Prop} {r : Except Stop State} (h : Returns Q r)
    (himp : ∀ τ, Q τ → Q' τ) : Returns Q' r := by
  cases r with
  | error e => exact h
  | ok τ => exact himp τ h

/-! ## The number of items and relations in use -/

def Items.aliveCount (I : Items) : ℕ :=
  (I.objects.toFinset.filter fun o => I.deleted o = false).card

lemma Items.aliveCount_le (I : Items) : I.aliveCount ≤ I.objects.length :=
  (Finset.card_filter_le _ _).trans (toFinset_card_le _)

lemma Shrinks.aliveCount_le (h : Shrinks σ τ) : τ.items.aliveCount ≤ σ.items.aliveCount := by
  refine Finset.card_le_card ?_
  intro o ho
  have halive : τ.items.Alive o := by simpa [Items.Alive] using ho
  simpa [Items.Alive] using h.alive halive

lemma Shrinks.aliveCount_lt (h : Shrinks σ τ) (ho : σ.items.Alive o)
    (hdel : τ.items.deleted o = true) : τ.items.aliveCount < σ.items.aliveCount := by
  refine Finset.card_lt_card (Finset.ssubset_iff_subset_ne.2 ⟨?_, ?_⟩)
  · intro x hx
    have halive : τ.items.Alive x := by simpa [Items.Alive] using hx
    simpa [Items.Alive] using h.alive halive
  · intro heq
    have hmem : o ∈ σ.items.objects.toFinset.filter fun o => σ.items.deleted o = false := by
      simpa [Items.Alive] using ho
    rw [← heq] at hmem
    simp [hdel] at hmem

def Relations.liveCount (S : Schema) (R : Relations) : ℕ :=
  ((R.created S).toFinset.filter fun r => R.lhs r ≠ none).card

lemma Relations.liveCount_le (S : Schema) (R : Relations) : R.liveCount S ≤ (R.created S).length :=
  (Finset.card_filter_le _ _).trans (toFinset_card_le _)

lemma Relations.liveCount_lt {R R' : Relations} (hr : r ∈ R.created S) (hlhs : R.lhs r ≠ none)
    (hlhs' : R'.lhs = Function.update R.lhs r none)
    (hnext : ∀ a, (R'.pool a).next = (R.pool a).next) : R'.liveCount S < R.liveCount S := by
  have hcreated : R'.created S = R.created S := by
    simp only [Relations.created, hnext]
  unfold Relations.liveCount
  rw [hcreated]
  refine Finset.card_lt_card (Finset.ssubset_iff_subset_ne.2 ⟨?_, ?_⟩)
  · intro x hx
    rw [Finset.mem_filter] at hx ⊢
    refine ⟨hx.1, fun hnone => hx.2 ?_⟩
    by_cases hxr : x = r
    · simp [hlhs', hxr]
    · simp [hlhs', hxr, hnone]
  · intro heq
    have hmem : r ∈ (R.created S).toFinset.filter fun r => R.lhs r ≠ none :=
      Finset.mem_filter.2 ⟨mem_toFinset.2 hr, hlhs⟩
    rw [← heq] at hmem
    simp [hlhs'] at hmem

lemma Sound.mem_created (h : Sound S σ) (hl : σ.relations.lhs r = some l) :
    r ∈ σ.relations.created S := by
  obtain ⟨o, _, hmem⟩ := h.relations.triple hl
  have hattr : r.1 ∈ S.attributes := S.relattributes_subset _ (h.typed.known hmem.2)
  exact mem_flatMap.2
    ⟨r.1, hattr, mem_map.2 ⟨r.2, mem_range.2 (h.relations.lt_next hl), rfl⟩⟩

/-! ## The parts of a deletion -/

/-- `Drop_Lhs_Relations` followed by the mark: the item no longer points at anything. -/
theorem Sound.drop (h : Sound S σ) (ho : σ.items.Alive o) :
    ∃ τ, dropLhsRelations S σ o = .ok τ ∧
      Sound S { dropLoopCheck τ o with items := τ.items.markDeleted o } ∧
      Shrinks σ { dropLoopCheck τ o with items := τ.items.markDeleted o } ∧
      τ.items = σ.items ∧ τ.refTable = σ.refTable := by
  have hkeys : ((S.relattributes (σ.items.cls o)).map fun a => (a, ([] : List DbObject))).map
      Prod.fst = S.relattributes (σ.items.cls o) := by
    simp [Function.comp_def]
  have hnodup : (((S.relattributes (σ.items.cls o)).map fun a => (a, ([] : List DbObject))).map
      Prod.fst).Nodup := by
    rw [hkeys]
    exact S.relattributes_nodup _
  obtain ⟨τ, hτ, hrel⟩ := udbUpdateRelations_spec (S := S) (l := o) false true h.relations
    hnodup (by simp) (by simp)
    (fun hk ho ho' => eq_of_mem_of_length (h.typed.scalar hk) ho.2 ho'.2)
    (fun hn => by cases hn) ho.1
  have hitems := hrel.items
  have hloops := hrel.quiet rfl
  have hdel : ∀ x, (τ.items.markDeleted o).Alive x ↔ σ.items.Alive x ∧ x ≠ o := by
    intro x
    unfold Items.Alive markDeleted
    rw [hitems]
    by_cases hx : x = o
    · simp [hx]
    · simp [hx]
  -- No attribute outside the list of the class has a value.
  have hmirror : ∀ t, t ∈ (τ.items.markDeleted o).mirror ↔ t ∈ replaceAll σ.items.mirror o
      ((S.relattributes (σ.items.cls o)).map fun a => (a, [])) := by
    rintro ⟨a, l, x⟩
    rw [mem_replaceAll hnodup, hkeys]
    have hval : (τ.items.markDeleted o).value = σ.items.value := by rw [hitems]; rfl
    have hdef : (a, l, x) ∈ (τ.items.markDeleted o).mirror ↔
        (a, l, x) ∈ σ.items.mirror ∧ l ≠ o := by
      unfold mirror
      simp only [Set.mem_ofPred_eq, hdel, hval]
      tauto
    rw [hdef]
    by_cases hlo : l = o
    · subst hlo
      refine iff_of_false (fun hmem => hmem.2 rfl) ?_
      split_ifs with ha
      · cases hlook : ((S.relattributes (σ.items.cls l)).map fun a =>
            (a, ([] : List DbObject))).lookup a with
        | none => simp
        | some v =>
          obtain ⟨b, _, hb⟩ := mem_map.1 (lookup_mem hlook)
          obtain ⟨_, rfl⟩ := Prod.mk.inj hb
          simp
      · intro hmem
        exact ha ⟨rfl, h.typed.known hmem.2⟩
    · rw [if_neg fun hmem => hlo hmem.1]
      exact and_iff_left hlo
  refine ⟨τ, hτ, ?_, ?_, hitems, hrel.refTable⟩
  · refine
      { relations := ?_
        typed := ?_
        starts := ?_ }
    · refine (hrel.represents.mono hmirror).congr_action ?_
      intro a l x _
      simp only [Schema.action, markDeleted, hitems]
    · refine
        { known := fun hx => ?_
          scalar := fun hk => ?_
          objects := fun hx => ?_
          gone := fun hx => ?_ }
      · simp only [markDeleted, hitems] at hx ⊢
        exact h.typed.known hx
      · simp only [markDeleted, hitems]
        exact h.typed.scalar hk
      · simp only [markDeleted, hitems] at hx ⊢
        exact h.typed.objects hx
      · rename_i x
        simp only [markDeleted, hitems] at hx ⊢
        by_cases hxo : x = o
        · exact hxo ▸ ho.1
        · exact h.typed.gone (by simpa [hxo] using hx)
    · intro e he
      have he' := mem_of_mem_filter he
      rw [hloops] at he'
      simp only [markDeleted, hitems]
      exact h.starts e he'
  · refine
      { objects := by simp only [markDeleted, hitems]
        cls := by simp only [markDeleted, hitems]
        deleted := fun hx => ?_
        value := fun hx => ?_
        refTable := fun hx => ?_
        added := fun hx => ?_
        loops := fun he hx => ?_
        loopTable := fun he => ?_ }
    · rename_i x
      simp only [markDeleted, hitems]
      by_cases hxo : x = o
      · simp [hxo]
      · simpa [hxo] using hx
    · simpa only [markDeleted, hitems] using hx
    · simpa only [dropLoopCheck, hrel.refTable] using hx
    · exact .inl (by simpa only [dropLoopCheck, hrel.refTable] using hx)
    · rename_i e
      have hne : e.2 ≠ o := by
        intro heq
        simp [heq, markDeleted] at hx
      exact mem_filter.2 ⟨hloops ▸ he, by simpa using hne⟩
    · have he' := mem_of_mem_filter he
      rwa [hloops] at he'

/-- `Nullify_Attribute` takes one pointer out of the value it is in. -/
theorem mirror_nullifyAttribute (h : Sound S σ) (hmem : (a, l, o) ∈ σ.items.mirror) (t : Triple) :
    t ∈ (nullifyAttribute S σ.items l a o).mirror ↔ t ∈ σ.items.mirror \ {(a, l, o)} := by
  obtain ⟨b, m, x⟩ := t
  have hvalue : x ∈ (nullifyAttribute S σ.items l a o).value m b ↔
      x ∈ σ.items.value m b ∧ ¬ (b = a ∧ m = l ∧ x = o) := by
    unfold nullifyAttribute
    by_cases hm : m = l
    · subst hm
      by_cases hb : b = a
      · subst hb
        simp only [Function.update_self, true_and]
        cases hkind : S.kind b with
        | vector => simp
        | scalar =>
          refine iff_of_false (by simp) ?_
          rintro ⟨hx, hne⟩
          exact hne (eq_of_mem_of_length (h.typed.scalar hkind) hx hmem.2)
      · simp [hb]
    · simp [hm]
  have halive : (nullifyAttribute S σ.items l a o).Alive m ↔ σ.items.Alive m := Iff.rfl
  unfold mirror
  simp only [Set.mem_ofPred_eq, Set.mem_sdiff, Set.mem_singleton_iff, Prod.mk.injEq, hvalue, halive]
  tauto

lemma value_nullifyAttribute (hx : x ∈ (nullifyAttribute S σ.items l a o).value m b) :
    x ∈ σ.items.value m b := by
  unfold nullifyAttribute at hx
  by_cases hm : m = l
  · subst hm
    by_cases hb : b = a
    · subst hb
      simp only [Function.update_self] at hx
      cases hkind : S.kind b with
      | vector =>
        rw [hkind] at hx
        exact mem_of_mem_filter hx
      | scalar =>
        rw [hkind] at hx
        cases hx
    · simpa [hb] using hx
  · simpa [hm] using hx

lemma length_nullifyAttribute :
    ((nullifyAttribute S σ.items l a o).value m b).length ≤ (σ.items.value m b).length := by
  unfold nullifyAttribute
  by_cases hm : m = l
  · subst hm
    by_cases hb : b = a
    · subst hb
      simp only [Function.update_self]
      cases S.kind b with
      | vector => exact length_filter_le _ _
      | scalar => exact Nat.zero_le _
    · simp [hb]
  · simp [hm]

/-- One round of the loop over the `Nullify` queue. -/
theorem Sound.nullify (h : Sound S σ) (hr : σ.relations.links.head o .nullify = some r) :
    ∃ l R, σ.relations.lhs r = some l ∧ updateRelation σ.relations r o none .nullify = .ok R ∧
      Sound S { σ with
        items := nullifyAttribute S σ.items l r.1 o
        relations := R } ∧
      Shrinks σ { σ with
        items := nullifyAttribute S σ.items l r.1 o
        relations := R } ∧
      R.liveCount S < σ.relations.liveCount S := by
  obtain ⟨l, hl, ho, hact, hmem⟩ := h.relations.of_head hr
  obtain ⟨R, hR, hrep, hlhs, _, hnext⟩ := h.relations.updateRelation_free hl ho
  rw [hact] at hR
  refine ⟨l, R, hl, hR, ?_, ?_, Relations.liveCount_lt (h.mem_created hl) (by simp [hl]) hlhs hnext⟩
  · exact
      { relations := hrep.mono (mirror_nullifyAttribute h hmem)
        typed :=
          { known := fun hx => h.typed.known (value_nullifyAttribute hx)
            scalar := fun hk => length_nullifyAttribute.trans (h.typed.scalar hk)
            objects := fun hx => h.typed.objects (value_nullifyAttribute hx)
            gone := h.typed.gone }
        starts := h.starts }
  · exact
      { objects := rfl
        cls := rfl
        deleted := id
        value := value_nullifyAttribute
        refTable := id
        added := .inl
        loops := fun he _ => he
        loopTable := id }

/-- The loop over the `Nullify` queue comes to an end with the queue empty, and deletes nothing. -/
theorem nullifyLoop_spec (h : Sound S σ) (hfuel : σ.relations.liveCount S < fuel) :
    ∃ τ, nullifyLoop S o fuel σ = .ok τ ∧ Sound S τ ∧ Shrinks σ τ ∧
      τ.items.deleted = σ.items.deleted ∧ τ.relations.links.head o .nullify = none := by
  induction fuel generalizing σ with
  | zero => exact absurd hfuel (Nat.not_lt_zero _)
  | succ fuel ih =>
    unfold nullifyLoop
    cases hr : σ.relations.links.head o .nullify with
    | none => exact ⟨σ, rfl, h, Shrinks.refl, rfl, hr⟩
    | some r =>
      obtain ⟨l, R, hl, hR, hsound, hshrinks, hlt⟩ := h.nullify hr
      obtain ⟨τ, hτ, hsound', hshrinks', hdel, hhead⟩ := ih hsound (by
        have hlt' : R.liveCount S < fuel := by omega
        exact hlt')
      refine ⟨τ, ?_, hsound', hshrinks.trans hshrinks', hdel, hhead⟩
      simp only [hl, hR]
      exact hτ

/-- The loop over the `Cascade` queue, with a deletion that meets its specification on every state
with fewer than `n` undeleted items. -/
theorem cascadeLoop_spec
    (hdel : ∀ {σ l}, Sound S σ → Tidy S σ D → σ.items.Alive l → σ.items.aliveCount < n →
      Returns (fun τ => Sound S τ ∧ Tidy S τ D ∧ Shrinks σ τ ∧ τ.items.deleted l = true)
        (del σ l)) (o : DbObject) (fuel : ℕ) (h : Sound S σ) (htidy : Tidy S σ D)
    (hn : σ.items.aliveCount < n) (hfuel : σ.items.aliveCount < fuel) :
    Returns (fun τ => Sound S τ ∧ Tidy S τ D ∧ Shrinks σ τ ∧
      τ.relations.links.head o .cascade = none) (cascadeLoop del o fuel σ) := by
  induction fuel generalizing σ with
  | zero => exact absurd hfuel (Nat.not_lt_zero _)
  | succ fuel ih =>
    unfold cascadeLoop
    cases hr : σ.relations.links.head o .cascade with
    | none => exact ⟨h, htidy, Shrinks.refl, hr⟩
    | some r =>
      obtain ⟨l, hl, _, _, hmem⟩ := h.relations.of_head hr
      have hcall := hdel h htidy hmem.1 hn
      simp only [hl]
      cases hres : del σ l with
      | error e =>
        rw [hres] at hcall
        exact hcall
      | ok τ =>
        rw [hres] at hcall
        obtain ⟨hsound, htidy', hshrinks, hdeleted⟩ := hcall
        have hlt := hshrinks.aliveCount_lt hmem.1 hdeleted
        exact (ih hsound htidy' (by omega) (by omega)).imp fun υ hυ =>
          ⟨hυ.1, hυ.2.1, hshrinks.trans hυ.2.2.1, hυ.2.2.2⟩

lemma Sound.addReferenceCheck (h : Sound S σ) (o : DbObject) : Sound S (addReferenceCheck σ o) :=
  { relations := h.relations
    typed := h.typed
    starts := h.starts }

lemma mem_addReferenceCheck : x ∈ (addReferenceCheck σ o).refTable ↔ x = o ∨ x ∈ σ.refTable := by
  unfold addReferenceCheck
  by_cases h : o ∈ σ.refTable
  · simp only [h, if_true]
    exact ⟨.inr, fun hx => hx.elim (fun hx => hx ▸ h) id⟩
  · simp [h]

lemma Shrinks.addReferenceCheck (ho : σ.items.deleted o = true) :
    Shrinks σ (addReferenceCheck σ o) :=
  { objects := rfl
    cls := rfl
    deleted := id
    value := id
    refTable := fun hx => mem_addReferenceCheck.2 (.inr hx)
    added := fun hx => by
      rcases mem_addReferenceCheck.1 hx with rfl | hx
      · exact .inr ho
      · exact .inl hx
    loops := fun he _ => he
    loopTable := id }

/-- When the queues of `o` for `Cascade` and `Nullify` are empty, and a check is scheduled unless
the queue for `Block` is empty as well, the deletion of `o` is complete. -/
theorem Tidy.complete (h : Sound S σ) (htidy : Tidy S σ (insert o D))
    (hcascade : ∀ {a l}, (a, l, o) ∈ σ.items.mirror →
      S.action σ.items a l ≠ .cascade) (hnullify : σ.relations.links.head o .nullify = none) :
    Tidy S (if σ.relations.links.head o .block = none then σ else addReferenceCheck σ o) D := by
  have hblock : ∀ {a l}, (a, l, o) ∈ σ.items.mirror → S.action σ.items a l = .block := by
    intro a l hmem
    cases hact : S.action σ.items a l with
    | block => rfl
    | cascade => exact absurd hact (hcascade hmem)
    | nullify => exact absurd hnullify (h.relations.head_ne_none_iff.2 ⟨a, l, hmem, hact⟩)
  split_ifs with hhead
  · intro a l x hmem hdel
    rcases htidy a l x hmem hdel with (rfl | hD) | hcheck
    · exact absurd hhead (h.relations.head_ne_none_iff.2 ⟨a, l, hmem, hblock hmem⟩)
    · exact .inl hD
    · exact .inr hcheck
  · intro a l x hmem hdel
    rcases htidy a l x hmem hdel with (rfl | hD) | hcheck
    · exact .inr ⟨hblock hmem, mem_addReferenceCheck.2 (.inl rfl)⟩
    · exact .inl hD
    · exact .inr ⟨hcheck.1, mem_addReferenceCheck.2 (.inr hcheck.2)⟩

lemma processRhsRelations_spec
    (hdel : ∀ {σ l}, Sound S σ → Tidy S σ (insert o D) → σ.items.Alive l →
      σ.items.aliveCount < n →
      Returns (fun τ => Sound S τ ∧ Tidy S τ (insert o D) ∧ Shrinks σ τ ∧
        τ.items.deleted l = true) (del σ l)) (h : Sound S σ) (htidy : Tidy S σ (insert o D))
    (hn : σ.items.aliveCount < n) (ho : σ.items.deleted o = true) :
    Returns (fun τ => Sound S τ ∧ Tidy S τ D ∧ Shrinks σ τ) (processRhsRelations S del σ o) := by
  have hloop := cascadeLoop_spec hdel o (σ.items.objects.length + 1) h htidy hn
    (Nat.lt_succ_of_le σ.items.aliveCount_le)
  unfold processRhsRelations
  cases hres : cascadeLoop del o (σ.items.objects.length + 1) σ with
  | error e =>
    rw [hres] at hloop
    exact hloop
  | ok σ₁ =>
    rw [hres] at hloop
    obtain ⟨h₁, htidy₁, hshrinks₁, hcascade⟩ := hloop
    obtain ⟨σ₂, hσ₂, h₂, hshrinks₂, hdeleted, hnullify⟩ := nullifyLoop_spec (o := o) h₁
      (Nat.lt_succ_of_le (σ₁.relations.liveCount_le S))
    simp only [hσ₂]
    have htidy₂ : Tidy S σ₂ (insert o D) := hshrinks₂.tidy (by rw [hdeleted]; exact id) htidy₁
    have hempty : ∀ {a l}, (a, l, o) ∈ σ₂.items.mirror → S.action σ₂.items a l ≠ .cascade := by
      intro a l hmem hact
      rw [hshrinks₂.action] at hact
      exact h₁.relations.head_ne_none_iff.2 ⟨a, l, hshrinks₂.mirror hmem, hact⟩ hcascade
    have ho₂ : σ₂.items.deleted o = true := hshrinks₂.deleted (hshrinks₁.deleted ho)
    refine ⟨?_, Tidy.complete h₂ htidy₂ hempty hnullify, (hshrinks₁.trans hshrinks₂).trans ?_⟩
    · split_ifs
      · exact h₂
      · exact h₂.addReferenceCheck o
    · split_ifs
      · exact Shrinks.refl
      · exact Shrinks.addReferenceCheck ho₂

/-! ## Whole deletions -/

/-- `Udb_Delete_Object`, with a deletion that meets its specification on every state with fewer
undeleted items. -/
theorem udbDeleteObject_spec
    (hdel : ∀ {σ l D}, Sound S σ → Tidy S σ D → σ.items.Alive l → σ.items.aliveCount < n →
      Returns (fun τ => Sound S τ ∧ Tidy S τ D ∧ Shrinks σ τ ∧ τ.items.deleted l = true)
        (del σ l)) (h : Sound S σ) (htidy : Tidy S σ D) (ho : σ.items.Alive o)
    (hn : σ.items.aliveCount ≤ n) :
    Returns (fun τ => Sound S τ ∧ Tidy S τ D ∧ Shrinks σ τ ∧ τ.items.deleted o = true)
      (udbDeleteObject S del σ o) := by
  obtain ⟨τ, hτ, hsound, hshrinks, hitems, href⟩ := h.drop ho
  unfold udbDeleteObject
  simp only [hτ]
  have hmarked : (τ.items.markDeleted o).deleted o = true := by simp [markDeleted]
  have htidy' : Tidy S { dropLoopCheck τ o with items := τ.items.markDeleted o }
      (insert o D) := by
    intro a l x hmem hdel
    by_cases hx : x = o
    · exact .inl (.inl hx)
    · have hdel' : σ.items.deleted x = true := by
        simpa [markDeleted, hx, hitems] using hdel
      rcases htidy a l x (hshrinks.mirror hmem) hdel' with hD | ⟨hblock, hmemref⟩
      · exact .inl (.inr hD)
      · exact .inr ⟨by rw [hshrinks.action]; exact hblock, hshrinks.refTable hmemref⟩
  have hlt := hshrinks.aliveCount_lt ho hmarked
  refine (processRhsRelations_spec hdel hsound htidy' (hlt.trans_le hn) hmarked).imp ?_
  intro υ hυ
  exact ⟨hυ.1, hυ.2.1, hshrinks.trans hυ.2.2, hυ.2.2.deleted hmarked⟩

/-- With more fuel than there are undeleted items a deletion returns, unless a class is read only;
the state is sound again and the item is deleted. -/
theorem udbDelete_spec (h : Sound S σ) (htidy : Tidy S σ D) (ho : σ.items.Alive o)
    (hfuel : σ.items.aliveCount < fuel) :
    Returns (fun τ => Sound S τ ∧ Tidy S τ D ∧ Shrinks σ τ ∧ τ.items.deleted o = true)
      (udbDelete S fuel σ o) := by
  induction fuel generalizing σ o D with
  | zero => exact absurd hfuel (Nat.not_lt_zero _)
  | succ fuel ih =>
    unfold udbDelete
    split_ifs
    · exact ⟨_, _, rfl⟩
    · exact udbDeleteObject_spec ih h htidy ho (Nat.le_of_lt_succ hfuel)

end Refint
end Unameit
