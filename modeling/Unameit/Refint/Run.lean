import Mathlib.Data.Set.Function
import Unameit.Refint.Delete

/-!
# Refint — every state that system calls reach

`Effect` says once what a successful system call does; all invariants of runs are derived from it.
The first is that the queues, the free lists and the attribute values agree
(`relations_of_run`).
-/

namespace Unameit
namespace Refint

variable {S : Schema} {σ : State}

/-- What a successful system call does. -/
inductive Effect (S : Schema) (σ τ : State) : Op → Prop
  | create {cname uuid args} (hnew : uuid ∉ σ.items.objects) (h : Saved S σ τ uuid true) :
      Effect S σ τ (.create cname uuid args)
  | update {uuid args} (h : Saved S σ τ uuid false) : Effect S σ τ (.update uuid args)
  | delete {uuid} (ho : σ.items.Alive uuid) (hdel : τ.items.deleted uuid = true)
      (h : Shrinks σ τ) (htidy : ∀ D, Tidy S σ D → Tidy S τ D) : Effect S σ τ (.delete uuid)
  | undelete {uuid args triggers} (hdel : σ.items.deleted uuid = true)
      (h : Saved S σ τ uuid true) : Effect S σ τ (.undelete uuid args triggers)

section Calls

variable {S : Schema} {σ τ : State} {uuid : DbObject} {args : List (CString × List DbObject)}

/-- A call that succeeds was not stopped by its first test. -/
theorem not_of_ite_error {c : Prop} [Decidable c] {e : Stop} {r : Except Stop State}
    (hok : (if c then .error e else r) = .ok τ) : ¬ c := by
  intro hc
  rw [if_pos hc] at hok
  cases hok

lemma udbCreate_spec {cname : CString} (h : Sound S σ)
    (hok : udbCreate S σ cname uuid args = .ok τ) :
    Sound S τ ∧ uuid ∉ σ.items.objects ∧ Saved S σ τ uuid true := by
  unfold udbCreate at hok
  rw [if_neg (not_of_ite_error hok)] at hok
  cases hset : setAttributes S σ.items uuid cname [] args with
  | error e => simp [hset] at hok
  | ok table =>
    simp only [hset] at hok
    have hused := not_of_ite_error hok
    rw [if_neg hused] at hok
    obtain ⟨hscan, _⟩ := setAttributes_spec hset Scanned.nil
    have hne : ∀ m ∈ σ.items.objects, m ≠ uuid := fun m hm he => hused (he ▸ hm)
    have hdead : ¬ σ.items.Alive uuid := fun halive => hused halive.1
    -- The item is new: it has no values yet, and nothing else changes.
    generalize hJ : ({ objects := uuid :: σ.items.objects
                       cls := Function.update σ.items.cls uuid cname
                       deleted := Function.update σ.items.deleted uuid false
                       value := Function.update σ.items.value uuid fun _ => [] } : Items) = J at hok
    have hnone : ∀ a, J.value uuid a = [] := fun a => by simp [← hJ]
    have hvalue : ∀ m, m ≠ uuid → J.value m = σ.items.value m := fun m hm => by simp [← hJ, hm]
    have hdeleted : ∀ m, m ≠ uuid → J.deleted m = σ.items.deleted m :=
      fun m hm => by simp [← hJ, hm]
    have hobjects : ∀ m, m ∈ J.objects ↔ m = uuid ∨ m ∈ σ.items.objects := fun m => by simp [← hJ]
    have hclass : ∀ m, m ≠ uuid → J.cls m = σ.items.cls m := fun m hm => by simp [← hJ, hm]
    have hself : J.cls uuid = cname := by simp [← hJ]
    have htyped : J.Typed S := by
      refine
        { known := ?_
          scalar := ?_
          objects := ?_
          gone := ?_ }
      · intro m a o ho
        by_cases hm : m = uuid
        · simp [hm, hnone] at ho
        · rw [hclass m hm]
          exact h.typed.known (hvalue m hm ▸ ho)
      · intro m a hk
        by_cases hm : m = uuid
        · simp [hm, hnone]
        · rw [hvalue m hm]
          exact h.typed.scalar hk
      · intro m a o ho
        by_cases hm : m = uuid
        · simp [hm, hnone] at ho
        · exact (hobjects o).2 (.inr (h.typed.objects (hvalue m hm ▸ ho)))
      · intro m hm
        by_cases hmu : m = uuid
        · exact (hobjects m).2 (.inl hmu)
        · exact (hobjects m).2 (.inr (h.typed.gone (hdeleted m hmu ▸ hm)))
    have hfresh : J.Alive uuid := ⟨(hobjects uuid).2 (.inl rfl), by simp [← hJ]⟩
    have halive : ∀ m, m ≠ uuid → (J.Alive m ↔ σ.items.Alive m) := by
      intro m hm
      unfold Items.Alive
      rw [hobjects, hdeleted m hm, or_iff_right hm]
    obtain ⟨υ, hυ, hsound, hsaved⟩ := h.save true htyped hfresh
      (fun m hm => (hobjects m).2 (.inr hm)) (fun m hm => hclass m (hne m hm)) halive hdeleted
      hvalue (hself ▸ hscan)
      (fun _ => iff_of_false (by simp [hnone]) fun hmem => hdead hmem.1) (iff_of_true rfl hdead)
    obtain rfl : υ = τ := Except.ok.inj (hυ.symm.trans hok)
    exact ⟨hsound, hused, hsaved⟩

lemma udbUpdate_spec (h : Sound S σ) (hok : udbUpdate S σ uuid args = .ok τ) :
    Sound S τ ∧ Saved S σ τ uuid false := by
  unfold udbUpdate at hok
  have halive := not_not.1 (not_of_ite_error hok)
  rw [if_neg (not_not.2 halive)] at hok
  rw [if_neg (not_of_ite_error hok)] at hok
  cases hset : setAttributes S σ.items uuid (σ.items.cls uuid) [] args with
  | error e => simp [hset] at hok
  | ok table =>
    simp only [hset] at hok
    obtain ⟨hscan, _⟩ := setAttributes_spec hset Scanned.nil
    obtain ⟨υ, hυ, hsound, hsaved⟩ := h.save false h.typed halive
      (fun m hm => hm) (fun m _ => rfl) (fun m _ => Iff.rfl) (fun m _ => rfl) (fun m _ => rfl)
      hscan (fun _ => (and_iff_right halive).symm) (iff_of_false (by simp) (not_not.2 halive))
    obtain rfl : υ = τ := Except.ok.inj (hυ.symm.trans hok)
    exact ⟨hsound, hsaved⟩

/-- `Udb_Undelete` keeps the database sound if all attributes of the item are given: an attribute
that is left out has its old value again, but no relations. -/
theorem udbUndelete_spec (h : Sound S σ)
    (hall : ∀ a ∈ S.relattributes (σ.items.cls uuid), a ∈ args.map Prod.fst)
    (hok : udbUndelete S σ uuid args = .ok τ) : Sound S τ ∧ Saved S σ τ uuid true := by
  unfold udbUndelete at hok
  have hobj := not_not.1 (not_of_ite_error hok)
  rw [if_neg (not_not.2 hobj)] at hok
  have halive := not_of_ite_error hok
  rw [if_neg halive] at hok
  rw [if_neg (not_of_ite_error hok)] at hok
  cases hset : setAttributes S σ.items uuid (σ.items.cls uuid) [] args with
  | error e => simp [hset] at hok
  | ok table =>
    simp only [hset] at hok
    obtain ⟨hscan, hkeys⟩ := setAttributes_spec hset Scanned.nil
    have hgone : ∀ {m}, Function.update σ.items.deleted uuid false m = true →
        m ∈ σ.items.objects := by
      intro m hm
      by_cases hmu : m = uuid
      · simp [hmu] at hm
      · exact h.typed.gone (by simpa [hmu] using hm)
    obtain ⟨υ, hυ, hsound, hsaved⟩ :=
      h.save true
        (J := { σ.items with deleted := Function.update σ.items.deleted uuid false })
        { known := h.typed.known
          scalar := h.typed.scalar
          objects := h.typed.objects
          gone := hgone }
        ⟨hobj, by simp⟩ (fun m hm => hm) (fun m _ => rfl)
        (fun m hm => by simp [Items.Alive, hm]) (fun m hm => by simp [hm]) (fun m _ => rfl) hscan
        (fun {a o} ha => iff_of_false
          (fun ho => ha (hkeys a (.inr (hall a (h.typed.known ho))))) fun hmem => halive hmem.1)
        (iff_of_true rfl halive)
    obtain rfl : υ = τ := Except.ok.inj (hυ.symm.trans hok)
    exact ⟨hsound, hsaved⟩

lemma unameitUndelete_spec {triggers : CString → List DbObject} (h : Sound S σ)
    (hok : unameitUndelete S σ uuid args triggers = .ok τ) :
    Sound S τ ∧ σ.items.deleted uuid = true ∧ Saved S σ τ uuid true := by
  unfold unameitUndelete at hok
  split_ifs at hok with hobj hdel
  obtain ⟨hsound, hsaved⟩ := udbUndelete_spec h (fun a ha => by simpa using ha) hok
  exact ⟨hsound, by simpa using hdel, hsaved⟩

lemma unameitDelete_spec (h : Sound S σ) (hok : unameitDelete S σ uuid = .ok τ) :
    Sound S τ ∧ Effect S σ τ (.delete uuid) := by
  have halive : σ.items.Alive uuid := by
    by_contra hdead
    simp [unameitDelete, udbDelete, hdead] at hok
  have hspec : ∀ D, Tidy S σ D →
      Sound S τ ∧ Tidy S τ D ∧ Shrinks σ τ ∧ τ.items.deleted uuid = true := by
    intro D htidy
    have hret := udbDelete_spec h htidy halive (Nat.lt_succ_of_le σ.items.aliveCount_le)
    unfold unameitDelete at hok
    rw [hok] at hret
    exact hret
  obtain ⟨hsound, _, hshrinks, hdel⟩ := hspec Set.univ fun _ _ _ _ _ => .inl trivial
  exact ⟨hsound, .delete halive hdel hshrinks fun D htidy => (hspec D htidy).2.1⟩

lemma step_spec {op : Op} (h : Sound S σ) (hok : step S σ op = .ok τ) :
    Sound S τ ∧ Effect S σ τ op := by
  cases op with
  | create cname uuid args =>
    obtain ⟨hsound, hnew, hsaved⟩ := udbCreate_spec h hok
    exact ⟨hsound, .create hnew hsaved⟩
  | update uuid args =>
    obtain ⟨hsound, hsaved⟩ := udbUpdate_spec h hok
    exact ⟨hsound, .update hsaved⟩
  | delete uuid => exact unameitDelete_spec h hok
  | undelete uuid args triggers =>
    obtain ⟨hsound, hdel, hsaved⟩ := unameitUndelete_spec h hok
    exact ⟨hsound, .undelete hdel hsaved⟩

end Calls

/-- A property of sound states that every successful call keeps, provided its state and operation
satisfy `C`, holds after every run whose calls satisfy `C`. -/
theorem run_induction (Inv : State → Prop) (C : State → Op → Prop)
    (hstep : ∀ {σ τ op}, Sound S σ → Sound S τ → Inv σ → C σ op → Effect S σ τ op → Inv τ)
    {ops : List Op} (h : Sound S σ) (hinv : Inv σ)
    (hC : ∀ pre op post, ops = pre ++ op :: post → C (run S σ pre) op) :
    Sound S (run S σ ops) ∧ Inv (run S σ ops) := by
  induction ops generalizing σ with
  | nil => exact ⟨h, hinv⟩
  | cons op rest ih =>
    have hhead : C σ op := hC [] op rest rfl
    have htail : ∀ {τ : State}, (∀ pre, run S σ (op :: pre) = run S τ pre) →
        ∀ pre op' post, rest = pre ++ op' :: post → C (run S τ pre) op' := by
      intro τ hrun pre op' post heq
      rw [← hrun pre]
      exact hC (op :: pre) op' post (by rw [heq]; rfl)
    cases hres : step S σ op with
    | error e =>
      have hrun : ∀ pre, run S σ (op :: pre) = run S σ pre := fun pre => by simp [run, hres]
      rw [hrun]
      exact ih h hinv (htail hrun)
    | ok τ =>
      have hrun : ∀ pre, run S σ (op :: pre) = run S τ pre := fun pre => by simp [run, hres]
      obtain ⟨hsound, heffect⟩ := step_spec h hres
      rw [hrun]
      exact ih hsound (hstep h hsound hinv hhead heffect) (htail hrun)

lemma Sound.run (h : Sound S σ) (ops : List Op) : Sound S (run S σ ops) :=
  (run_induction (fun _ => True) (fun _ _ => True) (fun _ _ _ _ _ => trivial) h trivial
    fun _ _ _ _ => trivial).1

/-! ## Queues, free lists and values -/

/-- A relation object is live when it has an `lhs`; what is on a free list has none. -/
def Relations.Live (R : Relations) (r : RelId) : Prop :=
  R.lhs r ≠ none

/-- The relation objects are where they belong. -/
structure Consistent (S : Schema) (σ : State) : Prop where
  /-- The queue of `rhs` and an action is a finite doubly-linked list of exactly the live relations
  with that `rhs` and that action. -/
  queue : ∀ rhs action, ∃ line : List RelId,
    σ.relations.links.Chain (.inl rhs) (σ.relations.links.head rhs action) line ∧ line.Nodup ∧
      ∀ r, r ∈ line ↔ σ.relations.Live r ∧ σ.relations.rhs r = some rhs ∧
        ∃ lhs, σ.relations.lhs r = some lhs ∧ S.relaction (σ.items.cls lhs) r.1 = action
  /-- The live relations of an attribute are in bijection with the pointers in its values. -/
  bijection : ∀ aname,
    Set.BijOn (fun n => (σ.relations.lhs (aname, n), σ.relations.rhs (aname, n)))
      {n | σ.relations.Live (aname, n)}
      {p | ∃ lhs rhs, p = (some lhs, some rhs) ∧ σ.items.Alive lhs ∧
        rhs ∈ σ.items.value lhs aname}
  /-- What was created is on the free list exactly when it is not live, and is there only once. -/
  free : ∀ aname, (σ.relations.pool aname).free.Nodup ∧ ∀ n,
    n ∈ (σ.relations.pool aname).free ↔
      n < (σ.relations.pool aname).next ∧ ¬ σ.relations.Live (aname, n)

lemma Sound.consistent (h : Sound S σ) : Consistent S σ := by
  have hrep := h.relations
  obtain ⟨line, hline⟩ := hrep.queues
  refine
    { queue := ?_
      bijection := ?_
      free := ?_ }
  · intro rhs action
    refine ⟨line rhs action, hline.chain rhs action, hline.nodup rhs action, ?_⟩
    intro r
    rw [hline.mem, Relations.place_eq_some_iff]
    constructor
    · rintro ⟨hrhs, lhs, hlhs, hact⟩
      exact ⟨by simp [Relations.Live, hlhs], hrhs, lhs, hlhs, hact⟩
    · rintro ⟨_, hrhs, lhs, hlhs, hact⟩
      exact ⟨hrhs, lhs, hlhs, hact⟩
  · intro aname
    refine ⟨?_, ?_, ?_⟩
    · intro n hn
      obtain ⟨lhs, hlhs⟩ := Option.ne_none_iff_exists'.1 hn
      obtain ⟨rhs, hrhs, hmem⟩ := hrep.triple hlhs
      exact ⟨lhs, rhs, by simp [hlhs, hrhs], hmem.1, hmem.2⟩
    · intro n hn m hm heq
      obtain ⟨lhs, hlhs⟩ := Option.ne_none_iff_exists'.1 hn
      obtain ⟨hl, hr⟩ := Prod.mk.inj heq
      exact hrep.unique hlhs (hl ▸ hlhs) hr
    · rintro p ⟨lhs, rhs, rfl, halive, hval⟩
      obtain ⟨n, hlhs, hrhs⟩ := hrep.relation (a := aname) (l := lhs) (o := rhs) ⟨halive, hval⟩
      exact ⟨n, by simp [Relations.Live, hlhs], by simp [hlhs, hrhs]⟩
  · intro aname
    refine ⟨(hrep.pools aname).nodup, fun n => ⟨?_, ?_⟩⟩
    · intro hn
      exact ⟨(hrep.pools aname).created (.inl hn), (hrep.pools aname).idle hn⟩
    · rintro ⟨hlt, hidle⟩
      exact (hrep.full aname n hlt).resolve_right hidle

/-- After any sequence of system calls the queues are well linked and the live relations are
exactly the pointers in the attribute values of the undeleted items. -/
theorem relations_of_run (S : Schema) (ops : List Op) : Consistent S (run S State.empty ops) :=
  (Sound.empty.run ops).consistent

end Refint
end Unameit
