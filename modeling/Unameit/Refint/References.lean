import Unameit.Refint.Run

/-!
# Refint — the reference checks at commit

An item that is deleted while `Block` attributes point at it is put into the table of reference
checks, and the commit fails if such pointers are still there when the transaction ends.  The table
is never corrected when an item is undeleted again: the check then fails for an item that is not
deleted any more.  As long as no item is undeleted while it is in the table, the check fails exactly
when an undeleted item points at a deleted one through a `Block` attribute.
-/

namespace Unameit
namespace Refint

/-- A deleted item is still in the value of a `Block` attribute of an undeleted item. -/
def Dangling (S : Schema) (σ : State) : Prop :=
  ∃ l a o, σ.items.Alive l ∧ o ∈ σ.items.value l a ∧ S.relaction (σ.items.cls l) a = .block ∧
    σ.items.deleted o = true

/-- No undeleted item points at a deleted one. -/
def NoDangling (σ : State) : Prop :=
  ∀ l a o, σ.items.Alive l → o ∈ σ.items.value l a → σ.items.deleted o = false

/-- The states that system calls and the ends of transactions lead to. -/
inductive Reached (S : Schema) : State → Prop
  | empty : Reached S State.empty
  | run {σ} (h : Reached S σ) (ops : List Op) : Reached S (run S σ ops)
  | reset {σ} (h : Reached S σ) : Reached S σ.resetChecks

variable {S : Schema} {σ : State} {op : Op}

lemma Reached.sound (h : Reached S σ) : Sound S σ := by
  induction h with
  | empty => exact Sound.empty
  | run _ ops ih => exact ih.run ops
  | reset _ ih => exact ih.resetChecks

lemma NoDangling.tidy (h : NoDangling σ) : Tidy S σ ∅ := by
  intro a l o hmem hdel
  rw [h l a o hmem.1 hmem.2] at hdel
  cases hdel

/-! ## The check -/

section Check

variable {R : Relations}

lemma blockReferences_eq_nil_iff {o : DbObject} {room : ℕ} {start : Option RelId}
    (hroom : 0 < room) : blockReferences R o room start = [] ↔ start = none := by
  obtain ⟨room, rfl⟩ := Nat.exists_eq_succ_of_ne_zero hroom.ne'
  cases start with
  | none => simp [blockReferences]
  | some r => simp [blockReferences]

lemma danglingReferences_eq_nil_iff {table : List DbObject} {room : ℕ} (hroom : 0 < room) :
    danglingReferences R room table = [] ↔ ∀ o ∈ table, R.links.head o .block = none := by
  induction table with
  | nil => simp [danglingReferences]
  | cons o rest ih =>
    rw [danglingReferences, List.forall_mem_cons, List.append_eq_nil_iff,
      blockReferences_eq_nil_iff hroom]
    refine and_congr_right fun hhead => ?_
    have hnone : blockReferences R o room (R.links.head o .block) = [] :=
      (blockReferences_eq_nil_iff hroom).2 hhead
    rw [hnone]
    exact ih

lemma udbDoReferenceChecks_ok_iff :
    udbDoReferenceChecks σ = .ok () ↔
      ∀ o ∈ σ.refTable, σ.relations.links.head o .block = none := by
  rw [← danglingReferences_eq_nil_iff (show 0 < 10 by decide)]
  unfold udbDoReferenceChecks
  cases danglingReferences σ.relations 10 σ.refTable with
  | nil => simp
  | cons found rest => simp

lemma udbDoReferenceChecks_error_iff :
    (∃ found, udbDoReferenceChecks σ = .error found) ↔ udbDoReferenceChecks σ ≠ .ok () := by
  cases udbDoReferenceChecks σ with
  | error found => simp
  | ok u => simp

/-- The check passes exactly when no item in the table is pointed at through a `Block` attribute. -/
theorem Sound.referenceChecks_iff (h : Sound S σ) :
    udbDoReferenceChecks σ = .ok () ↔
      ∀ {a l o}, (a, l, o) ∈ σ.items.mirror → S.action σ.items a l = .block → o ∉ σ.refTable := by
  rw [udbDoReferenceChecks_ok_iff]
  constructor
  · intro hall a l o hmem hact ho
    exact h.relations.head_ne_none_iff.2 ⟨a, l, hmem, hact⟩ (hall o ho)
  · intro hall o ho
    by_contra hne
    obtain ⟨a, l, hmem, hact⟩ := h.relations.head_ne_none_iff.1 hne
    exact hall hmem hact ho

end Check

/-! ## Runs -/

section Steps

variable {τ : State}

/-- Storing attribute values never leaves a new pointer at a deleted item. -/
theorem Saved.tidy {l : DbObject} {newObject : Bool} (h : Saved S σ τ l newObject)
    (htidy : Tidy S σ ∅) : Tidy S τ ∅ := by
  intro a m o hmem hdel
  have hol : o ≠ l := by
    intro heq
    rw [heq, h.alive.2] at hdel
    cases hdel
  rw [h.deleted o hol] at hdel
  have hold : (a, m, o) ∈ σ.items.mirror := by
    by_cases hm : m = l
    · subst hm
      rcases h.fresh hmem.2 with hold | halive
      · exact hold
      · rw [halive.2] at hdel
        cases hdel
    · exact ⟨(h.alive_iff m hm).1 hmem.1, by rw [← h.value m hm]; exact hmem.2⟩
  rcases htidy a m o hold hdel with hD | ⟨hact, href⟩
  · exact hD.elim
  · refine .inr ⟨?_, by rw [h.refTable]; exact href⟩
    unfold Schema.action at hact ⊢
    rw [h.cls m hold.1.1]
    exact hact

lemma Effect.tidy (h : Effect S σ τ op) (htidy : Tidy S σ ∅) : Tidy S τ ∅ := by
  cases h with
  | create _ hsaved => exact hsaved.tidy htidy
  | update hsaved => exact hsaved.tidy htidy
  | delete _ _ _ hkeep => exact hkeep ∅ htidy
  | undelete _ hsaved => exact hsaved.tidy htidy

end Steps

/-- No item is undeleted that is in the table of reference checks. -/
def Unscheduled (σ : State) : Op → Prop
  | .undelete uuid _ _ => uuid ∉ σ.refTable
  | _ => True

/-- Items in the table of reference checks are deleted, as long as none is undeleted. -/
theorem Effect.scheduled_deleted {τ : State} (hsound : Sound S σ) (h : Effect S σ τ op)
    (hop : Unscheduled σ op) (hdel : ∀ o ∈ σ.refTable, σ.items.deleted o = true) :
    ∀ o ∈ τ.refTable, τ.items.deleted o = true := by
  have hsaved : ∀ {l newObject}, Saved S σ τ l newObject → l ∉ σ.refTable →
      ∀ o ∈ τ.refTable, τ.items.deleted o = true := by
    intro l newObject hsaved hl o ho
    rw [hsaved.refTable] at ho
    rw [hsaved.deleted o fun heq => hl (heq ▸ ho)]
    exact hdel o ho
  cases h with
  | create hnew h =>
    exact hsaved h fun hl => hnew (hsound.typed.gone (hdel _ hl))
  | update h =>
    refine hsaved h fun hl => ?_
    have halive := (not_not.1 (mt h.before.2 (by simp))).2
    rw [hdel _ hl] at halive
    cases halive
  | delete _ _ h _ =>
    intro o ho
    rcases h.added ho with ho | ho
    · exact h.deleted (hdel o ho)
    · exact ho
  | undelete _ h => exact hsaved h hop

/-- In a transaction that starts without dangling references and undeletes no item that is due for
a check, the reference checks fail exactly when a `Block` attribute of an undeleted item has a
deleted item in its value. -/
theorem referenceChecks_of_run (S : Schema) (σ : State) (hσ : Reached S σ)
    (hstart : σ.refTable = []) (hclean : NoDangling σ) (ops : List Op)
    (hops : ∀ pre op post, ops = pre ++ op :: post → Unscheduled (run S σ pre) op) :
    (∃ found, udbDoReferenceChecks (run S σ ops) = .error found) ↔ Dangling S (run S σ ops) := by
  obtain ⟨hsound, htidy, hdeleted⟩ := run_induction
    (fun σ => Tidy S σ ∅ ∧ ∀ o ∈ σ.refTable, σ.items.deleted o = true) Unscheduled
    (fun hσ _ hinv hop heffect =>
      ⟨heffect.tidy hinv.1, heffect.scheduled_deleted hσ hop hinv.2⟩)
    hσ.sound ⟨hclean.tidy, by simp [hstart]⟩ hops
  rw [udbDoReferenceChecks_error_iff, Ne, hsound.referenceChecks_iff]
  constructor
  · intro hfail
    push Not at hfail
    obtain ⟨a, l, o, hmem, hact, ho⟩ := hfail
    exact ⟨l, a, o, hmem.1, hmem.2, hact, hdeleted o ho⟩
  · rintro ⟨l, a, o, halive, hval, hact, hdel⟩ hpass
    rcases htidy a l o ⟨halive, hval⟩ hdel with hD | ⟨_, ho⟩
    · exact hD
    · exact hpass ⟨halive, hval⟩ hact ho

/-! ## A schema with one attribute -/

/-- A schema with one class that has one scalar attribute `p`, with the given action and with loop
detection. -/
def oneAttribute (action : Action) : Schema where
  attributes := [['p']]
  relattributes := fun _ => [['p']]
  relattributes_subset := fun _ => List.Subset.refl _
  relattributes_nodup := fun _ => by simp
  kind := fun _ => .scalar
  relaction := fun _ _ => action
  isa := fun _ _ _ => true
  detectLoops := fun _ _ => true
  computed := fun _ _ => false
  readonly := fun _ => false

def pointing : List Op :=
  [.create [] 1 [], .create [] 2 [(['p'], [1])]]

/-- Only items that exist can be deleted, so that a look at those suffices. -/
theorem Sound.deleted_eq_false (h : Sound S σ)
    (hall : ∀ o ∈ σ.items.objects, σ.items.deleted o = false) (o : DbObject) :
    σ.items.deleted o = false := by
  by_contra hne
  have hdel : σ.items.deleted o = true := by simpa using hne
  exact hne (hall o (h.typed.gone hdel))

lemma pointing_deleted (action : Action) (o : DbObject) :
    (run (oneAttribute action) State.empty pointing).items.deleted o = false := by
  refine Sound.deleted_eq_false (Sound.empty.run pointing) ?_ o
  cases action <;> decide +kernel

theorem referenceChecks_of_run_delete :
    (∃ found, udbDoReferenceChecks (run (oneAttribute .block)
        (run (oneAttribute .block) State.empty pointing) [.delete 1]) = .error found) ↔
      Dangling (oneAttribute .block) (run (oneAttribute .block)
        (run (oneAttribute .block) State.empty pointing) [.delete 1]) := by
  refine referenceChecks_of_run (oneAttribute .block)
    (run (oneAttribute .block) State.empty pointing) (.run .empty pointing) (by decide +kernel)
    (fun _ _ o _ _ => pointing_deleted .block o) [.delete 1] ?_
  intro pre op post heq
  have hmem : op ∈ [Op.delete 1] := heq ▸ List.mem_append_right pre List.mem_cons_self
  obtain rfl := List.mem_singleton.1 hmem
  trivial

/-- Item 1 is deleted while item 2 points at it, and undeleted again: the check fails although no
item is deleted. -/
theorem reference_error_after_undelete :
    ∃ (S : Schema) (σ : State) (ops : List Op), Reached S σ ∧ σ.refTable = [] ∧ NoDangling σ ∧
      udbDoReferenceChecks (run S σ ops) = .error [(some 2, ['p'], 1)] ∧
      ¬ Dangling S (run S σ ops) := by
  have hreached : Reached (oneAttribute .block)
      (run (oneAttribute .block) State.empty pointing) := .run .empty pointing
  refine ⟨oneAttribute .block, run (oneAttribute .block) State.empty pointing,
    [.delete 1, .undelete 1 [] fun _ => []], hreached, by decide +kernel,
    fun _ _ o _ _ => pointing_deleted .block o, by decide +kernel, ?_⟩
  rintro ⟨_, _, o, _, _, _, hdel⟩
  have hnone := Sound.deleted_eq_false
    (hreached.run [.delete 1, .undelete 1 [] fun _ => []]).sound (by decide +kernel) o
  rw [hdel] at hnone
  cases hnone

end Refint
end Unameit
