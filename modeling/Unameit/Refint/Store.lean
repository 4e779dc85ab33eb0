import Mathlib.Data.List.Dedup
import Mathlib.Data.Set.Insert
import Unameit.Refint.Basic

/-!
# Refint — what the relation objects stand for

The relation objects as a whole stand for a set of triples of an attribute, a pointing item and an
item pointed at.  `Represents` says that the queues, the free lists and the relations agree with
such a set.  Each edit of the relations has one lemma that says what it does to the set; for the
update of one attribute value the result is `replace`, whatever way the code takes to get there.
-/

namespace Unameit
namespace Refint

open Function (update update_self update_of_ne)
open Option List

variable {c : Action} {newObject : Bool} {table : List DbObject}

open Relations

abbrev Triple := CString × DbObject × DbObject

/-- The queue a relation belongs to: that of its `rhs` for the action of its attribute. -/
def Relations.place (R : Relations) (action : CString → DbObject → Action) (r : RelId) :
    Option (DbObject × Action) :=
  match R.lhs r, R.rhs r with
  | some lhs, some rhs => some (rhs, action r.1 lhs)
  | _, _ => none

/-- The relations stand for the triples `P`.  A relation is in use when it has an `lhs`. -/
structure Represents (action : CString → DbObject → Action) (R : Relations) (P : Set Triple) :
    Prop where
  queues : ∃ line, R.links.Holds (R.place action) line
  pools : ∀ a, (R.pool a).Sound fun n => R.lhs (a, n) ≠ none
  full : ∀ a, (R.pool a).Full fun n => R.lhs (a, n) ≠ none
  triple : ∀ {r l}, R.lhs r = some l → ∃ o, R.rhs r = some o ∧ (r.1, l, o) ∈ P
  relation : ∀ {a l o}, (a, l, o) ∈ P → ∃ n, R.lhs (a, n) = some l ∧ R.rhs (a, n) = some o
  unique : ∀ {a n m l}, R.lhs (a, n) = some l → R.lhs (a, m) = some l →
    R.rhs (a, n) = R.rhs (a, m) → n = m

/-- The triples of one item and one attribute are replaced by those of a new value. -/
def replace (P : Set Triple) (a : CString) (l : DbObject) (v : List DbObject) : Set Triple :=
  {t | if t.1 = a ∧ t.2.1 = l then t.2.2 ∈ v else t ∈ P}

lemma mem_replace {P : Set Triple} {a b : CString} {l m o : DbObject} {v : List DbObject} :
    (b, m, o) ∈ replace P a l v ↔ if b = a ∧ m = l then o ∈ v else (b, m, o) ∈ P :=
  Iff.rfl

variable {R : Relations} {action : CString → DbObject → Action} {r : RelId} {l o : DbObject}

section Place

lemma Relations.place_eq (hl : R.lhs r = some l) (ho : R.rhs r = some o) :
    R.place action r = some (o, action r.1 l) := by
  simp [place, hl, ho]

lemma Relations.place_eq_none (hl : R.lhs r = none) : R.place action r = none := by
  simp [place, hl]

lemma Relations.place_eq_some_iff :
    R.place action r = some (o, c) ↔
      R.rhs r = some o ∧ ∃ l, R.lhs r = some l ∧ action r.1 l = c := by
  unfold place
  cases hl : R.lhs r with
  | none => simp
  | some l =>
    cases ho : R.rhs r with
    | none => simp
    | some o' => simp

end Place

namespace Represents

variable {action' : CString → DbObject → Action} {P Q : Set Triple} {a : CString} {o' : DbObject}

lemma empty : Represents action State.empty.relations ∅ :=
  { queues := ⟨fun _ _ => [], Links.Holds.empty⟩
    pools := fun _ => Pool.Sound.empty.congr fun _ => by simp [State.empty]
    full := fun _ => Pool.Full.empty.congr fun _ => by simp [State.empty]
    triple := fun h => by cases h
    relation := fun h => h.elim
    unique := fun h => by cases h }

section

variable (h : Represents action R P)

include h

lemma mono (heq : ∀ t, t ∈ Q ↔ t ∈ P) : Represents action R Q := by
  have hQP : Q = P := Set.ext heq
  exact hQP ▸ h

lemma congr_action (heq : ∀ {a l o}, (a, l, o) ∈ P → action' a l = action a l) :
    Represents action' R P := by
  obtain ⟨line, hline⟩ := h.queues
  refine { h with queues := ⟨line, hline.congr ?_⟩ }
  intro r
  cases hl : R.lhs r with
  | none => rw [place_eq_none hl, place_eq_none hl]
  | some l =>
    obtain ⟨o, ho, hP⟩ := h.triple hl
    rw [place_eq hl ho, place_eq hl ho, heq hP]

/-- A queue has a head exactly when there is a triple for it. -/
theorem head_ne_none_iff : R.links.head o c ≠ none ↔ ∃ a l, (a, l, o) ∈ P ∧ action a l = c := by
  obtain ⟨line, hline⟩ := h.queues
  rw [Ne, hline.head_eq_none_iff]
  constructor
  · intro hne
    push Not at hne
    obtain ⟨r, hr⟩ := hne
    obtain ⟨ho, l, hl, hc⟩ := place_eq_some_iff.1 hr
    obtain ⟨o', ho', hP⟩ := h.triple hl
    have heq : o' = o := some.inj (ho'.symm.trans ho)
    exact ⟨r.1, l, heq ▸ hP, hc⟩
  · rintro ⟨a, l, hP, hc⟩ hall
    obtain ⟨n, hl, ho⟩ := h.relation hP
    exact hall (a, n) (place_eq_some_iff.2 ⟨ho, l, hl, hc⟩)

/-- The head of a queue is a relation with that `rhs` and that action. -/
theorem of_head (hr : R.links.head o c = some r) :
    ∃ l, R.lhs r = some l ∧ R.rhs r = some o ∧ action r.1 l = c ∧ (r.1, l, o) ∈ P := by
  obtain ⟨line, hline⟩ := h.queues
  obtain ⟨ho, l, hl, hc⟩ := place_eq_some_iff.1 (hline.place_of_head hr)
  obtain ⟨o', ho', hP⟩ := h.triple hl
  have heq : o' = o := some.inj (ho'.symm.trans ho)
  exact ⟨l, hl, ho, hc, heq ▸ hP⟩

lemma lt_next {n : ℕ} (hl : R.lhs (a, n) = some l) : n < (R.pool a).next :=
  (h.pools a).created (.inr (by simp [hl]))

/-! ## Single relations -/

lemma newRelation (hP : (a, l, o) ∉ P) :
    Represents action (newRelation R a l o (action a l)) (insert (a, l, o) P) := by
  obtain ⟨line, hline⟩ := h.queues
  have hsound := h.pools a
  have hfull := h.full a
  have hidle : R.lhs (a, (R.pool a).take.1) = none := by
    by_contra hne
    exact hsound.not_live_take hne
  unfold Refint.newRelation buildRelation
  generalize htaken : (R.pool a).take = taken at hidle
  obtain ⟨n, pool⟩ := taken
  have hlive : ∀ m, update R.lhs (a, n) (some l) (a, m) ≠ none ↔
      m = n ∨ R.lhs (a, m) ≠ none := by
    intro m
    by_cases hm : m = n
    · simp [hm]
    · simp [hm]
  have hother : ∀ {b m}, b ≠ a → update R.lhs (a, n) (some l) (b, m) = R.lhs (b, m) := by
    intro b m hb
    rw [update_of_ne]
    exact fun he => hb (Prod.mk.inj he).1
  refine
    { queues := ?_
      pools := ?_
      full := ?_
      triple := ?_
      relation := ?_
      unique := ?_ }
  · refine ⟨_, (hline.push (place_eq_none hidle)).congr ?_⟩
    intro r
    by_cases hr : r = (a, n)
    · subst hr
      simp [place]
    · simp [place, hr]
  · intro b
    by_cases hb : b = a
    · subst hb
      have htake := hsound.take
      rw [htaken] at htake
      simpa using htake.congr hlive
    · simpa [hb, hother hb] using h.pools b
  · intro b
    by_cases hb : b = a
    · subst hb
      have htake := hfull.take
      rw [htaken] at htake
      simpa using htake.congr hlive
    · simpa [hb, hother hb] using h.full b
  · intro r l' hr
    by_cases hra : r = (a, n)
    · subst hra
      have hl' : l = l' := by simpa using hr
      exact ⟨o, by simp, by simp [hl']⟩
    · have hr' : R.lhs r = some l' := by simpa [hra] using hr
      obtain ⟨o', ho', hmem⟩ := h.triple hr'
      exact ⟨o', by simpa [hra] using ho', Set.mem_insert_of_mem _ hmem⟩
  · intro b l' o' hmem
    rcases hmem with heq | hmem
    · obtain ⟨rfl, rfl, rfl⟩ := heq
      exact ⟨n, by simp, by simp⟩
    · obtain ⟨m, hm, ho'⟩ := h.relation hmem
      have hne : (b, m) ≠ (a, n) := by
        intro he
        rw [he, hidle] at hm
        cases hm
      exact ⟨m, by simpa [hne] using hm, by simpa [hne] using ho'⟩
  · -- The new relation is not a second one for its triple, since the triple was not there.
    have hnew : ∀ {m l'}, (l = l') → R.lhs (a, m) = some l' → R.rhs (a, m) ≠ some o := by
      intro m l' hl' hm ho'
      obtain ⟨o₂, ho₂, hmem⟩ := h.triple hm
      have heq : o₂ = o := some.inj (ho₂.symm.trans ho')
      exact hP (by rw [hl', ← heq]; exact hmem)
    intro b m k l' hm hk hrhs
    by_cases hme : (b, m) = (a, n)
    · rcases Prod.mk.inj hme with ⟨rfl, rfl⟩
      by_cases hke : k = m
      · exact hke.symm
      · have hne : (b, k) ≠ (b, m) := fun he => hke (Prod.mk.inj he).2
        have hk' : R.lhs (b, k) = some l' := by simpa [hne] using hk
        have hl' : l = l' := by simpa using hm
        exact absurd (by simpa [hne] using hrhs.symm) (hnew hl' hk')
    · have hm' : R.lhs (b, m) = some l' := by simpa [hme] using hm
      by_cases hke : (b, k) = (a, n)
      · rcases Prod.mk.inj hke with ⟨rfl, rfl⟩
        have hl' : l = l' := by simpa using hk
        exact absurd (by simpa [hme] using hrhs) (hnew hl' hm')
      · exact h.unique hm' (by simpa [hke] using hk) (by simpa [hme, hke] using hrhs)

/-- `Update_Relation` without a new `rhs` takes one triple away. -/
theorem updateRelation_free (hl : R.lhs r = some l) (ho : R.rhs r = some o) :
    ∃ R', updateRelation R r o none (action r.1 l) = .ok R' ∧
      Represents action R' (P \ {(r.1, l, o)}) ∧
      R'.lhs = update R.lhs r none ∧ R'.rhs = R.rhs ∧
      ∀ a, (R'.pool a).next = (R.pool a).next := by
  obtain ⟨line, hline⟩ := h.queues
  obtain ⟨links, hlinks, hholds⟩ := hline.unlink (place_eq hl ho)
  obtain ⟨a, n⟩ := r
  refine ⟨{ lhs := update R.lhs (a, n) none
            rhs := R.rhs
            links := links
            pool := update R.pool a ((R.pool a).give n) },
    by simp [updateRelation, hlinks], ?_, rfl, rfl, ?_⟩
  · have hlive : ∀ m, update R.lhs (a, n) none (a, m) ≠ none ↔
        R.lhs (a, m) ≠ none ∧ m ≠ n := by
      intro m
      by_cases hm : m = n
      · simp [hm]
      · simp [hm]
    have hother : ∀ {b m}, b ≠ a →
        update R.lhs (a, n) none (b, m) = R.lhs (b, m) := by
      intro b m hb
      rw [update_of_ne]
      exact fun he => hb (Prod.mk.inj he).1
    have hkept : ∀ {r' l'}, update R.lhs (a, n) none r' = some l' →
        r' ≠ (a, n) ∧ R.lhs r' = some l' := by
      intro r' l' hr'
      by_cases hne : r' = (a, n)
      · simp [hne] at hr'
      · exact ⟨hne, by simpa [hne] using hr'⟩
    refine
      { queues := ?_
        pools := ?_
        full := ?_
        triple := ?_
        relation := ?_
        unique := ?_ }
    · refine ⟨_, hholds.congr ?_⟩
      intro r'
      by_cases hr' : r' = (a, n)
      · simp [hr', place]
      · simp [hr', place]
    · intro b
      by_cases hb : b = a
      · subst hb
        have hgive := (h.pools b).give (show R.lhs (b, n) ≠ none by simp [hl])
        simpa using hgive.congr hlive
      · simpa [hb, hother hb] using h.pools b
    · intro b
      by_cases hb : b = a
      · subst hb
        have hgive := (h.full b).give (o := n)
        simpa using hgive.congr hlive
      · simpa [hb, hother hb] using h.full b
    · intro r' l' hr'
      obtain ⟨hne, hlhs⟩ := hkept hr'
      obtain ⟨o', ho', hmem⟩ := h.triple hlhs
      refine ⟨o', ho', hmem, ?_⟩
      intro heq
      obtain ⟨b, m⟩ := r'
      obtain ⟨rfl, rfl, rfl⟩ := heq
      exact hne (by rw [h.unique hlhs hl (ho'.trans ho.symm)])
    · rintro b l' o' ⟨hmem, hne⟩
      obtain ⟨m, hm, ho'⟩ := h.relation hmem
      have hr' : (b, m) ≠ (a, n) := by
        intro he
        rcases Prod.mk.inj he with ⟨rfl, rfl⟩
        have hl' : l' = l := some.inj (hm.symm.trans hl)
        have hoo : o' = o := some.inj (ho'.symm.trans ho)
        exact hne (by rw [hl', hoo]; rfl)
      exact ⟨m, by simpa [hr'] using hm, ho'⟩
    · intro b m k l' hm hk hrhs
      exact h.unique (hkept hm).2 (hkept hk).2 hrhs
  · intro b
    by_cases hb : b = a
    · subst hb
      simp [Pool.give]
    · simp [hb]

/-- `Update_Relation` with a new `rhs` replaces one triple. -/
theorem updateRelation_move (hl : R.lhs r = some l) (ho : R.rhs r = some o)
    (hP : (r.1, l, o') ∉ P \ {(r.1, l, o)}) :
    ∃ R', updateRelation R r o (some o') (action r.1 l) = .ok R' ∧
      Represents action R' (insert (r.1, l, o') (P \ {(r.1, l, o)})) := by
  obtain ⟨line, hline⟩ := h.queues
  obtain ⟨links, hlinks, hholds⟩ := hline.unlink (place_eq hl ho)
  obtain ⟨a, n⟩ := r
  refine ⟨buildRelation { R with links } (a, n) o' (action a l),
    by simp [updateRelation, hlinks], ?_⟩
  unfold buildRelation
  refine
    { queues := ?_
      pools := h.pools
      full := h.full
      triple := ?_
      relation := ?_
      unique := ?_ }
  · refine ⟨_, (hholds.push (update_self _ _ _)).congr ?_⟩
    intro r'
    by_cases hr' : r' = (a, n)
    · subst hr'
      simp [place, hl]
    · simp [place, hr']
  · intro r' l' hr'
    by_cases hne : r' = (a, n)
    · subst hne
      have hll : l = l' := some.inj (hl.symm.trans hr')
      exact ⟨o', by simp, .inl (by rw [hll])⟩
    · obtain ⟨o₂, ho₂, hmem⟩ := h.triple hr'
      refine ⟨o₂, by simpa [hne] using ho₂, .inr ⟨hmem, ?_⟩⟩
      intro heq
      obtain ⟨b, m⟩ := r'
      obtain ⟨rfl, rfl, rfl⟩ := heq
      exact hne (by rw [h.unique hr' hl (ho₂.trans ho.symm)])
  · intro b l' o₂ hmem
    rcases hmem with heq | ⟨hmem, hne⟩
    · obtain ⟨rfl, rfl, rfl⟩ := heq
      exact ⟨n, hl, by simp⟩
    · obtain ⟨m, hm, ho₂⟩ := h.relation hmem
      have hr' : (b, m) ≠ (a, n) := by
        intro he
        rcases Prod.mk.inj he with ⟨rfl, rfl⟩
        have hl' : l' = l := some.inj (hm.symm.trans hl)
        have hoo : o₂ = o := some.inj (ho₂.symm.trans ho)
        exact hne (by rw [hl', hoo]; rfl)
      exact ⟨m, hm, by simpa [hr'] using ho₂⟩
  · have hnew : ∀ {m}, m ≠ n → R.lhs (a, m) = some l → R.rhs (a, m) ≠ some o' := by
      intro m hm hm' hrhs
      obtain ⟨o₂, ho₂, hmem⟩ := h.triple hm'
      have heq : o₂ = o' := some.inj (ho₂.symm.trans hrhs)
      refine hP ⟨heq ▸ hmem, ?_⟩
      intro he
      have hoo : o' = o := (Prod.mk.inj (Prod.mk.inj he).2).2
      exact hm (h.unique hm' hl (by rw [hrhs, ho, hoo]))
    intro b m k l' hm hk hrhs
    by_cases hme : (b, m) = (a, n)
    · rcases Prod.mk.inj hme with ⟨rfl, rfl⟩
      by_cases hke : k = m
      · exact hke.symm
      · have hne : (b, k) ≠ (b, m) := fun he => hke (Prod.mk.inj he).2
        have hll : l = l' := some.inj (hl.symm.trans hm)
        exact absurd (by simpa [hne] using hrhs.symm) (hnew hke (hll ▸ hk))
    · by_cases hke : (b, k) = (a, n)
      · rcases Prod.mk.inj hke with ⟨rfl, rfl⟩
        have hmk : m ≠ k := fun he => hme (by rw [he])
        have hll : l = l' := some.inj (hl.symm.trans hk)
        exact absurd (by simpa [hme] using hrhs) (hnew hmk (hll ▸ hm))
      · exact h.unique hm hk (by simpa [hme, hke] using hrhs)

end

/-! ## The relations of one value -/

lemma findRelation_eq_some (hr : findRelation R a l = some r) : r.1 = a ∧ R.lhs r = some l := by
  have hmem := mem_of_find?_eq_some hr
  obtain ⟨n, _, rfl⟩ := mem_map.1 hmem
  exact ⟨rfl, by simpa using find?_some hr⟩

lemma findRelation_eq_none (h : Represents action R P) (hr : findRelation R a l = none) :
    (a, l, o) ∉ P := by
  intro hmem
  obtain ⟨n, hl, _⟩ := h.relation hmem
  have hnone := find?_eq_none.1 hr (a, n)
    (mem_map.2 ⟨n, mem_range.2 (h.lt_next hl), rfl⟩)
  exact hnone (by simpa using hl)

lemma mem_selectRelations (h : Represents action R P) :
    r ∈ selectRelations R a l ↔ r.1 = a ∧ R.lhs r = some l := by
  constructor
  · intro hr
    obtain ⟨hmem, hl⟩ := mem_filter.1 hr
    obtain ⟨n, _, rfl⟩ := mem_map.1 hmem
    exact ⟨rfl, by simpa using hl⟩
  · rintro ⟨rfl, hl⟩
    exact mem_filter.2
      ⟨mem_map.2 ⟨r.2, mem_range.2 (h.lt_next hl), rfl⟩, by simpa using hl⟩

lemma nodup_selectRelations : (selectRelations R a l).Nodup := by
  refine List.Nodup.filter _ (List.Nodup.map ?_ nodup_range)
  exact fun n m he => (Prod.mk.inj he).2

lemma relateScalar (h : Represents action R P) (rhs : Option DbObject)
    (hone : ∀ {o o'}, (a, l, o) ∈ P → (a, l, o') ∈ P → o = o')
    (hnew : newObject = true → ∀ o, (a, l, o) ∉ P) :
    ∃ R', relateScalar R l a rhs (action a l) newObject = .ok R' ∧
      Represents action R' (replace P a l rhs.toList) := by
  unfold Refint.relateScalar
  cases hfind : if newObject then none else findRelation R a l with
  | none =>
    -- There is no relation yet.
    have hP : ∀ o, (a, l, o) ∉ P := by
      cases newObject with
      | true => exact hnew rfl
      | false => exact fun o => h.findRelation_eq_none hfind
    cases rhs with
    | none =>
      refine ⟨R, rfl, h.mono ?_⟩
      rintro ⟨b, m, x⟩
      rw [mem_replace]
      split_ifs with hbm
      · rw [hbm.1, hbm.2]
        exact iff_of_false (by simp) (hP x)
      · exact Iff.rfl
    | some o =>
      refine ⟨_, rfl, (h.newRelation (hP o)).mono ?_⟩
      rintro ⟨b, m, x⟩
      rw [mem_replace]
      split_ifs with hbm
      · rw [hbm.1, hbm.2]
        simp [hP x]
      · have hne : (b, m, x) ≠ (a, l, o) := by
          intro he
          simp only [Prod.mk.injEq] at he
          exact hbm ⟨he.1, he.2.1⟩
        simp [hne]
  | some r =>
    have hr : findRelation R a l = some r := by
      cases newObject with
      | true => cases hfind
      | false => exact hfind
    obtain ⟨rfl, hl⟩ := findRelation_eq_some hr
    obtain ⟨oldrhs, ho, hold⟩ := h.triple hl
    have hslice : ∀ {x}, (r.1, l, x) ∈ P \ {(r.1, l, oldrhs)} → False := by
      rintro x ⟨hx, hne⟩
      exact hne (by rw [hone hx hold]; rfl)
    have hrest : ∀ {b m x}, ¬ (b = r.1 ∧ m = l) →
        ((b, m, x) ∈ P \ {(r.1, l, oldrhs)} ↔ (b, m, x) ∈ P) := by
      intro b m x hbm
      refine ⟨fun hx => hx.1, fun hx => ⟨hx, ?_⟩⟩
      intro he
      simp only [Set.mem_singleton_iff, Prod.mk.injEq] at he
      exact hbm ⟨he.1, he.2.1⟩
    simp only [ho]
    cases rhs with
    | none =>
      obtain ⟨R', hR', hrep, _⟩ := h.updateRelation_free hl ho
      refine ⟨R', hR', hrep.mono ?_⟩
      rintro ⟨b, m, x⟩
      rw [mem_replace]
      split_ifs with hbm
      · rw [hbm.1, hbm.2]
        exact iff_of_false (by simp) hslice
      · exact (hrest hbm).symm
    | some o =>
      obtain ⟨R', hR', hrep⟩ := h.updateRelation_move hl ho fun hx => hslice hx
      refine ⟨R', hR', hrep.mono ?_⟩
      rintro ⟨b, m, x⟩
      rw [mem_replace]
      split_ifs with hbm
      · rw [hbm.1, hbm.2, Set.mem_insert_iff, or_iff_left hslice]
        simp
      · have hne : (b, m, x) ≠ (r.1, l, o) := by
          intro he
          simp only [Prod.mk.injEq] at he
          exact hbm ⟨he.1, he.2.1⟩
        rw [Set.mem_insert_iff, or_iff_right hne]
        exact (hrest hbm).symm

/-- The old relations whose `rhs` is not in the table are freed, and the others are struck out of
the table. -/
theorem trimRelations (h : Represents action R P) {rels : List RelId}
    (hrels : ∀ r ∈ rels, r.1 = a ∧ R.lhs r = some l) (hnodup : rels.Nodup) (htable : table.Nodup) :
    ∃ R' table', trimRelations (action a l) R rels table = .ok (R', table') ∧
      Represents action R'
        {t | t ∈ P ∧ ∀ r ∈ rels, t.1 = a → t.2.1 = l → R.rhs r = some t.2.2 → t.2.2 ∈ table} ∧
      table'.Nodup ∧ ∀ o, o ∈ table' ↔ o ∈ table ∧ ∀ r ∈ rels, R.rhs r ≠ some o := by
  induction rels generalizing R P table with
  | nil =>
    refine ⟨R, table, rfl, h.mono ?_, htable, ?_⟩
    · rintro t
      simp
    · intro o
      simp
  | cons r rest ih =>
    obtain ⟨hr, hl⟩ := hrels r mem_cons_self
    have hrest : ∀ r' ∈ rest, r'.1 = a ∧ R.lhs r' = some l :=
      fun r' hr' => hrels r' (mem_cons_of_mem _ hr')
    obtain ⟨hnotin, hnodup'⟩ := nodup_cons.1 hnodup
    obtain ⟨elem, helem, hP⟩ := h.triple hl
    -- No other relation of this item has the same `rhs`.
    have hdistinct : ∀ r' ∈ rest, R.rhs r' ≠ some elem := by
      intro r' hr' he
      obtain ⟨hr'a, hr'l⟩ := hrest r' hr'
      obtain ⟨b, n⟩ := r
      obtain ⟨c, m⟩ := r'
      have hca : c = b := hr'a.trans hr.symm
      subst hca
      exact hnotin (h.unique hr'l hl (he.trans helem.symm) ▸ hr')
    unfold Refint.trimRelations
    simp only [helem]
    by_cases hmem : elem ∈ table
    · rw [if_pos hmem]
      obtain ⟨R', table', heq, hrep, hnd, htab⟩ := ih h hrest hnodup' (htable.erase elem)
      refine ⟨R', table', heq, hrep.mono ?_, hnd, ?_⟩
      · rintro ⟨b, m, x⟩
        simp only [Set.mem_ofPred_eq, forall_mem_cons]
        refine and_congr_right fun hx => ?_
        constructor
        · rintro ⟨_, hall⟩ r' hr' hb hm hx'
          have hne : x ≠ elem := fun he => hdistinct r' hr' (he ▸ hx')
          exact (mem_erase_of_ne hne).2 (hall r' hr' hb hm hx')
        · intro hall
          refine ⟨fun _ _ hx' => ?_, fun r' hr' hb hm hx' => ?_⟩
          · have hxe : elem = x := some.inj (helem.symm.trans hx')
            exact hxe ▸ hmem
          · exact mem_of_mem_erase (hall r' hr' hb hm hx')
      · intro o
        rw [htab, htable.mem_erase_iff, forall_mem_cons, helem]
        constructor
        · rintro ⟨⟨hne, ho⟩, hall⟩
          exact ⟨ho, fun he => hne (some.inj he).symm, hall⟩
        · rintro ⟨ho, hne, hall⟩
          exact ⟨⟨fun he => hne (by rw [he]), ho⟩, hall⟩
    · rw [if_neg hmem]
      obtain ⟨R₁, hR₁, hrep₁, hlhs₁, hrhs₁, _⟩ := h.updateRelation_free hl helem
      rw [hr] at hR₁ hrep₁
      have hrest₁ : ∀ r' ∈ rest, r'.1 = a ∧ R₁.lhs r' = some l := by
        intro r' hr'
        have hne : r' ≠ r := fun he => hnotin (he ▸ hr')
        rw [hlhs₁, update_of_ne hne]
        exact hrest r' hr'
      obtain ⟨R', table', heq, hrep, hnd, htab⟩ := ih hrep₁ hrest₁ hnodup' htable
      rw [hrhs₁] at hrep htab
      refine ⟨R', table', by simp only [hR₁, heq], hrep.mono ?_, hnd, ?_⟩
      · rintro ⟨b, m, x⟩
        simp only [Set.mem_ofPred_eq, forall_mem_cons, Set.mem_sdiff, Set.mem_singleton_iff]
        constructor
        · rintro ⟨hx, hhead, hall⟩
          refine ⟨⟨hx, ?_⟩, hall⟩
          intro he
          obtain ⟨rfl, rfl, rfl⟩ := he
          exact hmem (hhead rfl rfl helem)
        · rintro ⟨⟨hx, hne⟩, hall⟩
          refine ⟨hx, fun hb hm hx' => ?_, hall⟩
          have hxe : elem = x := some.inj (helem.symm.trans hx')
          exact absurd (by rw [hb, hm, hxe]) hne
      · intro o
        rw [htab, forall_mem_cons, helem]
        constructor
        · rintro ⟨ho, hall⟩
          exact ⟨ho, fun he => hmem (some.inj he ▸ ho), hall⟩
        · rintro ⟨ho, _, hall⟩
          exact ⟨ho, hall⟩

lemma newRelations (h : Represents action R P) (htable : table.Nodup)
    (hP : ∀ o ∈ table, (a, l, o) ∉ P) :
    Represents action (newRelations R a l (action a l) table)
      {t | t ∈ P ∨ t.1 = a ∧ t.2.1 = l ∧ t.2.2 ∈ table} := by
  induction table generalizing R P with
  | nil => exact h.mono fun t => by simp
  | cons o rest ih =>
    obtain ⟨hnotin, hnodup⟩ := nodup_cons.1 htable
    have hstep := h.newRelation (hP o mem_cons_self)
    have hfresh : ∀ o' ∈ rest, (a, l, o') ∉ insert (a, l, o) P := by
      rintro o' ho' (he | hmem)
      · simp only [Prod.mk.injEq, true_and] at he
        exact hnotin (he ▸ ho')
      · exact hP o' (mem_cons_of_mem _ ho') hmem
    refine (ih hstep hnodup hfresh).mono ?_
    rintro ⟨b, m, x⟩
    simp only [Set.mem_ofPred_eq, Set.mem_insert_iff, mem_cons, Prod.mk.injEq]
    tauto

lemma relateVector (h : Represents action R P) (rhs : List DbObject)
    (hnew : newObject = true → ∀ o, (a, l, o) ∉ P) :
    ∃ R' table, relateVector R l a rhs (action a l) newObject = .ok (R', table) ∧
      Represents action R' (replace P a l rhs) ∧
      ∀ o, o ∈ table ↔ o ∈ rhs ∧ (a, l, o) ∉ P := by
  -- Both ways leave the elements of the value that are new, and no other relations of the item.
  obtain ⟨R₁, table, heq, hrep, hnodup, htable⟩ : ∃ R₁ table,
      (if newObject then .ok (R, rhs.dedup)
        else Refint.trimRelations (action a l) R (selectRelations R a l) rhs.dedup) =
          Except.ok (R₁, table) ∧
      Represents action R₁ {t | t ∈ P ∧ (t.1 = a → t.2.1 = l → t.2.2 ∈ rhs)} ∧
      table.Nodup ∧ ∀ o, o ∈ table ↔ o ∈ rhs ∧ (a, l, o) ∉ P := by
    cases newObject with
    | true =>
      refine ⟨R, rhs.dedup, rfl, h.mono ?_, nodup_dedup _, ?_⟩
      · rintro ⟨b, m, x⟩
        refine ⟨fun hx => hx.1, fun hx => ⟨hx, ?_⟩⟩
        rintro rfl rfl
        exact absurd hx (hnew rfl x)
      · intro o
        rw [mem_dedup]
        exact ⟨fun ho => ⟨ho, hnew rfl o⟩, fun ho => ho.1⟩
    | false =>
      obtain ⟨R₁, table, heq, hrep, hnodup, htable⟩ :=
        h.trimRelations (fun r (hr : r ∈ selectRelations R a l) => h.mem_selectRelations.1 hr)
          nodup_selectRelations
          (nodup_dedup rhs)
      -- The relations that were selected are those of the triples of this item.
      have hselect : ∀ x, (∃ r ∈ selectRelations R a l, R.rhs r = some x) ↔ (a, l, x) ∈ P := by
        intro x
        constructor
        · rintro ⟨r, hr, hx⟩
          obtain ⟨rfl, hl⟩ := h.mem_selectRelations.1 hr
          obtain ⟨o, ho, hmem⟩ := h.triple hl
          exact some.inj (ho.symm.trans hx) ▸ hmem
        · intro hmem
          obtain ⟨n, hl, ho⟩ := h.relation hmem
          exact ⟨(a, n), h.mem_selectRelations.2 ⟨rfl, hl⟩, ho⟩
      refine ⟨R₁, table, heq, hrep.mono ?_, hnodup, ?_⟩
      · rintro ⟨b, m, x⟩
        refine and_congr_right fun hx => ?_
        constructor
        · intro hall r _ hb hm _
          exact mem_dedup.2 (hall hb hm)
        · intro hall hb hm
          have hb' : b = a := hb
          have hm' : m = l := hm
          subst hb' hm'
          obtain ⟨r, hr, hrx⟩ := (hselect x).2 hx
          exact mem_dedup.1 (hall r hr rfl rfl hrx)
      · intro o
        rw [htable, mem_dedup, ← hselect]
        push Not
        exact Iff.rfl
  unfold Refint.relateVector
  rw [heq]
  refine ⟨_, table, rfl, (hrep.newRelations hnodup ?_).mono ?_, htable⟩
  · exact fun o ho hmem => ((htable o).1 ho).2 hmem.1
  · rintro ⟨b, m, x⟩
    rw [mem_replace]
    by_cases hbm : b = a ∧ m = l
    · obtain ⟨rfl, rfl⟩ := hbm
      simp only [and_self, if_true, Set.mem_ofPred_eq, htable, true_and, forall_const]
      tauto
    · rw [if_neg hbm]
      simp only [Set.mem_ofPred_eq]
      tauto

end Represents
end Refint
end Unameit
