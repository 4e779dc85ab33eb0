import Unameit.Tx.Basic

/-!
# Tx.Commit — what the result of a commit tells

A commit that returns `TCL_OK` should have committed everything there was to commit, and a commit
that rolls back should return `TCL_ERROR`: `Honest` says so for one call.  After a failed check the
code returns `TCL_ERROR` itself.  After an option that is not an integer it returns what
`Udb_Do_Rollback` returns, and this is an error only if the rollback had been forced earlier.
`udbCommit_honest_iff` says exactly which calls are honest.
-/

namespace Unameit
namespace Tx

variable {U : Type*}

/-! ## Setting versions -/

structure Versioned (σ τ : State U) : Prop where
  committed : τ.committed = σ.committed
  updates : τ.working.updates = σ.working.updates
  forceRollback : τ.forceRollback = σ.forceRollback
  rollbacks : τ.rollbacks = σ.rollbacks
  log : τ.log = σ.log

lemma Versioned.refl (σ : State U) : Versioned σ σ := ⟨rfl, rfl, rfl, rfl, rfl⟩

variable {σ τ : State U} {o : Options}

lemma Versioned.trans {υ : State U} (h : Versioned σ τ) (h' : Versioned τ υ) :
    Versioned σ υ where
  committed := h'.committed.trans h.committed
  updates := h'.updates.trans h.updates
  forceRollback := h'.forceRollback.trans h.forceRollback
  rollbacks := h'.rollbacks.trans h.rollbacks
  log := h'.log.trans h.log

lemma versioned_setMajor (part : Part) (n : Option ℤ) (σ : State U) :
    Versioned σ (setMajor part n σ) := by
  cases n <;> exact ⟨rfl, rfl, rfl, rfl, rfl⟩

lemma versioned_setMinor (part : Part) (n : Option ℤ) (σ : State U) :
    Versioned σ (setMinor part n σ) := by
  cases n <;> exact ⟨rfl, rfl, rfl, rfl, rfl⟩

lemma setMinor_setMajor_txDbUpdated (part : Part) (m n : Option ℤ) (σ : State U) :
    (setMinor part n (setMajor part m σ)).txDbUpdated = σ.txDbUpdated := by
  cases m <;> cases n <;> rfl

def Options.Valid (env : Checks U) (o : Options) (part : Part) : Prop :=
  (∀ text ∈ o.major part, (env.stringToInt32 text).isSome) ∧
    ∀ text ∈ o.minor part, (env.stringToInt32 text).isSome

instance (env : Checks U) (o : Options) (part : Part) : Decidable (o.Valid env part) :=
  inferInstanceAs (Decidable (_ ∧ _))

def Options.given (o : Options) (part : Part) : Bool :=
  (o.major part).isSome || (o.minor part).isSome

lemma optionToInt32_cases (env : Checks U) (option : Option CString) :
    (∃ n, optionToInt32 env option = .ok n ∧ n.isSome = option.isSome ∧
      ∀ text ∈ option, (env.stringToInt32 text).isSome) ∨
    ∃ e, optionToInt32 env option = .error e ∧
      ¬ ∀ text ∈ option, (env.stringToInt32 text).isSome := by
  cases option with
  | none => exact .inl ⟨none, rfl, rfl, by simp⟩
  | some text =>
    cases hn : env.stringToInt32 text with
    | some n => exact .inl ⟨some n, by simp [optionToInt32, hn], rfl, by simp [hn]⟩
    | none => exact .inr ⟨_, by simp [optionToInt32, hn]; rfl, by simp [hn]⟩

/-- The outcome of setting versions.  The flag `tx_db_updated` is set only when all options of the
part are integers. -/
theorem setVersions_cases (env : Checks U) (o : Options) (part : Part) (σ : State U) :
    (∃ τ, setVersions env o part σ = .ok τ ∧ Versioned σ τ ∧ o.Valid env part ∧
      τ.txDbUpdated = (σ.txDbUpdated || o.given part) ∧
      (o.given part = false → τ = σ)) ∨
    ∃ text τ, setVersions env o part σ = .error (text, τ) ∧ Versioned σ τ ∧
      ¬ o.Valid env part ∧ τ.txDbUpdated = σ.txDbUpdated := by
  unfold setVersions
  rcases optionToInt32_cases env (o.major part) with ⟨m, hm, hsome, hvalid⟩ | ⟨e, he, hbad⟩
  · have hmajor := versioned_setMajor part m σ
    rcases optionToInt32_cases env (o.minor part) with ⟨n, hn, hsome', hvalid'⟩ | ⟨e, he, hbad⟩
    · have hminor := hmajor.trans (versioned_setMinor part n (setMajor part m σ))
      simp only [hm, hn, hsome, hsome']
      left
      by_cases hg : ((o.major part).isSome || (o.minor part).isSome) = true
      · refine ⟨_, by rw [if_pos hg], ?_, ⟨hvalid, hvalid'⟩, ?_, ?_⟩
        · exact hminor.trans ⟨rfl, rfl, rfl, rfl, rfl⟩
        · simp [Options.given, hg, putMinor]
        · simp [Options.given, hg]
      · refine ⟨_, by rw [if_neg hg], hminor, ⟨hvalid, hvalid'⟩, ?_, fun _ => ?_⟩
        · simp [Options.given, hg, setMinor_setMajor_txDbUpdated]
        · have hnone : m = none ∧ n = none := by
            simp only [Bool.or_eq_true, not_or, ← hsome, ← hsome'] at hg
            simpa using hg
          rw [hnone.1, hnone.2]
          rfl
    · simp only [hm, he]
      exact .inr ⟨e, _, rfl, hmajor, fun h => hbad h.2, setMinor_setMajor_txDbUpdated part m none σ⟩
  · simp only [he]
    exact .inr ⟨e, σ, rfl, .refl σ, fun h => hbad h.1, rfl⟩

lemma setVersions_both_cases (env : Checks U) (o : Options) (σ : State U) :
    (∃ τ, setVersions env o .data (loadTranVersions σ) >>= setVersions env o .schema = .ok τ ∧
      Versioned σ τ ∧ (∀ part, o.Valid env part) ∧
      τ.txDbUpdated = (σ.txDbUpdated || o.given .data || o.given .schema) ∧
      ((∀ part, o.given part = false) → τ = loadTranVersions σ)) ∨
    ∃ text τ, setVersions env o .data (loadTranVersions σ) >>= setVersions env o .schema =
        .error (text, τ) ∧
      Versioned σ τ ∧ (¬ ∀ part, o.Valid env part) ∧
      τ.txDbUpdated = (σ.txDbUpdated || (o.Valid env .data && o.given .data)) := by
  have hload : Versioned σ (loadTranVersions σ) := ⟨rfl, rfl, rfl, rfl, rfl⟩
  rcases setVersions_cases env o .data (loadTranVersions σ) with
    ⟨τ, hτ, hver, hvalid, htx, hkeep⟩ | ⟨text, τ, hτ, hver, hbad, htx⟩
  · rw [hτ]
    rcases setVersions_cases env o .schema τ with
      ⟨υ, hυ, hver', hvalid', htx', hkeep'⟩ | ⟨text, υ, hυ, hver', hbad, htx'⟩
    · refine .inl ⟨υ, hυ, hload.trans (hver.trans hver'), fun part => ?_, ?_, fun hg => ?_⟩
      · cases part with
        | data => exact hvalid
        | schema => exact hvalid'
      · rw [htx', htx]
        rfl
      · rw [hkeep' (hg .schema), hkeep (hg .data)]
    · refine .inr ⟨text, υ, hυ, hload.trans (hver.trans hver'), fun h => hbad (h .schema), ?_⟩
      rw [htx', htx, decide_eq_true hvalid]
      rfl
  · rw [hτ]
    refine .inr ⟨text, τ, rfl, hload.trans hver, fun h => hbad (h .data), ?_⟩
    rw [htx, decide_eq_false hbad, Bool.false_and, Bool.or_false]
    rfl

/-! ## Committing -/

/-- The parts of the versions that a commit counts up. -/
theorem versioned_stepMicro (part : Part) (σ : State U) : Versioned σ (stepMicro part σ) := by
  unfold stepMicro
  split_ifs <;> exact ⟨rfl, rfl, rfl, rfl, rfl⟩

lemma changeSchema_keeps {env : Checks U} (h : changeSchema env σ = .ok τ) :
    σ.working.updates <+: τ.working.updates ∧ τ.rollbacks = σ.rollbacks ∧ τ.log = σ.log := by
  unfold changeSchema at h
  cases hm : σ.schemaModified with
  | false =>
    simp only [hm, Bool.false_eq_true, if_false] at h
    cases h
    exact ⟨List.prefix_rfl, rfl, rfl⟩
  | true =>
    simp only [hm, if_true] at h
    cases hc : env.changeSchema σ.working with
    | error e =>
      rw [hc] at h
      cases h
    | ok l =>
      rw [hc] at h
      cases h
      exact ⟨List.prefix_append .., rfl, rfl⟩

/-- A commit that is not refused has nothing to do, or returns an error, or commits the updates. -/
theorem udbDoCommit_cases (env : Checks U) (logEntry : Option CString)
    (hσ : σ.forceRollback = false) :
    (σ.txDbUpdated = false ∧ udbDoCommit env logEntry σ = (.ok [], σ)) ∨
    σ.txDbUpdated = true ∧ ((udbDoCommit env logEntry σ).1.failed = true ∨
      ((udbDoCommit env logEntry σ).2.working = (udbDoCommit env logEntry σ).2.committed ∧
        σ.working.updates <+: (udbDoCommit env logEntry σ).2.committed.updates ∧
        (udbDoCommit env logEntry σ).2.rollbacks = σ.rollbacks)) := by
  cases htx : σ.txDbUpdated with
  | false => exact .inl ⟨rfl, by simp [udbDoCommit, hσ, htx]⟩
  | true =>
    refine .inr ⟨rfl, ?_⟩
    simp only [udbDoCommit, hσ, htx, Bool.false_eq_true, if_false, Bool.not_true]
    cases hc : runChecks env σ with
    | some e => exact .inl rfl
    | none =>
      cases hs : changeSchema env σ with
      | error e => exact .inl rfl
      | ok τ =>
        obtain ⟨hpre, hroll, -⟩ := changeSchema_keeps hs
        have hver := (versioned_stepMicro .data τ).trans
          (versioned_stepMicro .schema (stepMicro .data τ))
        refine .inr ⟨rfl, ?_, hver.rollbacks.trans hroll⟩
        exact hpre.trans (hver.updates ▸ List.prefix_rfl)

/-! ## Arguments -/

lemma not_mem_of_not_mem_cons₂ {α : Type*} {a b c : α} {l : List α} (h : a ∉ b :: c :: l) : a ∉ l :=
  fun hl => h (List.mem_cons_of_mem _ (List.mem_cons_of_mem _ hl))

lemma parseOptions_noCommit {args : List CString} (hargs : "-noCommit".toList ∉ args)
    (ho : o.noCommit = false) : (parseOptions args o).1.noCommit = false := by
  fun_induction parseOptions args o with
  | case1 => exact ho
  | case2 => exact ho
  | case3 o value args _ _ ih => exact ih (not_mem_of_not_mem_cons₂ hargs) ho
  | case4 o value args _ _ _ ih => exact ih (not_mem_of_not_mem_cons₂ hargs) ho
  | case5 o value args _ _ _ _ ih => exact ih (not_mem_of_not_mem_cons₂ hargs) ho
  | case6 o value args _ _ _ _ _ ih => exact ih (not_mem_of_not_mem_cons₂ hargs) ho
  | case7 => exact absurd List.mem_cons_self hargs
  | case8 => exact ho
  | case9 => exact ho

/-! ## Honest results -/

/-- What the result of a commit should tell: with `TCL_OK` all updates have been committed, or
there were none; and after a rollback there is an error. -/
def Honest (σ : State U) (r : TclResult × State U) : Prop :=
  (r.1.failed = false →
    (r.2.working = r.2.committed ∧ σ.working.updates <+: r.2.committed.updates) ∨
      σ.working = σ.committed) ∧
  (r.2.rollbacks ≠ σ.rollbacks → r.1.failed = true)

lemma Honest.of_failed {r : TclResult × State U} (h : r.1.failed = true) : Honest σ r :=
  ⟨fun h' => by simp [h] at h', fun _ => h⟩

lemma udbDoRollback_result (text : CString) (σ : State U) :
    (udbDoRollback text σ).1.failed = σ.forceRollback ∧
      (udbDoRollback text σ).2.rollbacks = σ.rollbacks + 1 := by
  unfold udbDoRollback
  cases hf : σ.forceRollback <;> cases ht : σ.txDbUpdated <;> simp [TclResult.failed]

/-- A commit with an option that is not an integer is honest only if the rollback was forced. -/
theorem honest_udbDoRollback_iff (h : Versioned σ τ) (text : CString) :
    Honest σ (udbDoRollback text τ) ↔ σ.forceRollback = true := by
  obtain ⟨hfailed, hroll⟩ := udbDoRollback_result text τ
  rw [h.forceRollback] at hfailed
  rw [h.rollbacks] at hroll
  constructor
  · intro hh
    rw [← hfailed]
    exact hh.2 (by omega)
  · intro hf
    exact Honest.of_failed (hfailed.trans hf)

lemma honest_udbDoCommit_iff (env : Checks U) (logEntry : Option CString) (h : Versioned σ τ)
    (hkeep : τ.txDbUpdated = false → τ.working = σ.working) :
    Honest σ (udbDoCommit env logEntry τ) ↔
      σ.forceRollback = true ∨ τ.txDbUpdated = true ∨ σ.working = σ.committed := by
  cases hf : σ.forceRollback with
  | true =>
    have hτ : τ.forceRollback = true := h.forceRollback.trans hf
    have hroll : udbDoCommit env logEntry τ = udbDoRollback [] τ := by simp [udbDoCommit, hτ]
    rw [hroll, honest_udbDoRollback_iff h]
    simp [hf]
  | false =>
    rcases udbDoCommit_cases env logEntry (h.forceRollback.trans hf) with
      ⟨htx, heq⟩ | ⟨htx, hdone⟩
    · rw [heq, htx]
      simp only [Honest, h.committed, hkeep htx, h.rollbacks, TclResult.failed]
      constructor
      · intro hh
        rcases hh.1 trivial with ⟨hc, -⟩ | hc
        · exact .inr (.inr hc)
        · exact .inr (.inr hc)
      · intro hh
        exact ⟨fun _ => .inr (by simpa using hh), by simp⟩
    · refine iff_of_true ?_ (.inr (.inl htx))
      rcases hdone with hfail | ⟨hwork, hpre, hroll⟩
      · exact Honest.of_failed hfail
      · refine ⟨fun _ => .inl ⟨hwork, h.updates ▸ hpre⟩, fun hne => ?_⟩
        exact absurd (hroll.trans h.rollbacks) hne

lemma honest_commitWith_iff (env : Checks U) (ho : o.noCommit = false) (logEntry : Option CString)
    (σ : State U) :
    Honest σ (commitWith env o logEntry σ) ↔
      σ.forceRollback = true ∨ ((∀ part, o.Valid env part) ∧
        (σ.txDbUpdated = true ∨ (∃ part, o.given part = true) ∨ σ.working = σ.committed)) := by
  rcases setVersions_both_cases env o σ with
    ⟨τ, hτ, hver, hvalid, htx, hkeep⟩ | ⟨text, τ, hτ, hver, hbad, -⟩
  · have hgiven : (∃ part, o.given part = true) ↔ (o.given .data || o.given .schema) = true := by
      rw [Bool.or_eq_true]
      refine ⟨fun ⟨part, hp⟩ => ?_, fun h => h.elim (fun h => ⟨_, h⟩) fun h => ⟨_, h⟩⟩
      cases part with
      | data => exact .inl hp
      | schema => exact .inr hp
    have hnone : τ.txDbUpdated = false → τ.working = σ.working := by
      intro hf
      rw [htx, Bool.or_eq_false_iff, Bool.or_eq_false_iff] at hf
      rw [hkeep fun part => ?_]
      · rfl
      cases part with
      | data => exact hf.1.2
      | schema => exact hf.2
    have hcommit : commitWith env o logEntry σ = udbDoCommit env logEntry τ := by
      simp [commitWith, hτ, ho]
    rw [hcommit, honest_udbDoCommit_iff env logEntry hver hnone, htx, hgiven]
    simp only [hvalid, Bool.or_eq_true]
    tauto
  · have hcommit : commitWith env o logEntry σ = udbDoRollback text τ := by
      simp [commitWith, hτ, ho]
    rw [hcommit, honest_udbDoRollback_iff hver]
    simp [hbad]

/-- **Honest commits.**  A call without `-noCommit` is honest if and only if the rollback was forced
earlier, or the call is refused for its arguments, or all its version options are integers and
`tx_db_updated` tells about the updates. -/
theorem udbCommit_honest_iff (env : Checks U) (args : List CString)
    (hargs : "-noCommit".toList ∉ args) (σ : State U) :
    Honest σ (udbCommit env args σ) ↔
      let o := (parseOptions args Options.none).1
      2 ≤ (parseOptions args Options.none).2.length ∨ σ.forceRollback = true ∨
        ((∀ part, o.Valid env part) ∧
          (σ.txDbUpdated = true ∨ (∃ part, o.given part = true) ∨ σ.working = σ.committed)) := by
  have ho : (parseOptions args Options.none).1.noCommit = false :=
    parseOptions_noCommit hargs rfl
  unfold udbCommit
  rcases hparse : parseOptions args Options.none with ⟨o, rest⟩
  rw [hparse] at ho
  cases rest with
  | nil => simpa using honest_commitWith_iff env ho none σ
  | cons logEntry rest =>
    cases rest with
    | nil => simpa using honest_commitWith_iff env ho (some logEntry) σ
    | cons _ _ => exact iff_of_true (Honest.of_failed rfl) (.inl (by simp))

/-! ## A commit that loses an update -/

def noErrors : Checks ℕ where
  referenceChecks _ := none
  uniqueChecks _ := none
  loopChecks _ := none
  inetCheckIntegrity _ := none
  changeSchema _ := .ok []
  stringToInt32 text := if text = "7".toList then some 7 else none

def emptyState : State ℕ where
  committed := { updates := [], version := fun _ => { major := 0, minor := 0, micro := 0 } }
  working := { updates := [], version := fun _ => { major := 0, minor := 0, micro := 0 } }
  syscallDbUpdated := false
  txDbUpdated := false
  forceRollback := false
  schemaModified := false
  savedError := { result := [], errorCode := [] }
  txVersion := none
  newTxMicro _ := false
  restoreMode := .noRestore
  log := []
  rollbacks := 0

def oneUpdate : State ℕ := udbFinishObject emptyState (.item .data) 1

/-- With an integer the update is committed. -/
theorem udbCommit_honest_iff_integer :
    Honest oneUpdate (udbCommit noErrors ["-dataMajor".toList, "7".toList] oneUpdate) := by
  refine (udbCommit_honest_iff noErrors ["-dataMajor".toList, "7".toList] (by decide)
    oneUpdate).2 (.inr (.inr ⟨fun part => ?_, .inl rfl⟩))
  cases part with
  | data => exact ⟨by decide, by decide⟩
  | schema => exact ⟨by decide, by decide⟩

/-- With another text the update is lost, and the result is `TCL_OK`. -/
theorem udbCommit_loses_update :
    ∃ (env : Checks ℕ) (args : List CString) (σ : State ℕ),
      "-noCommit".toList ∉ args ∧ ¬ Honest σ (udbCommit env args σ) ∧
      σ.working.updates = [1] ∧ (udbCommit env args σ).1.failed = false ∧
      (udbCommit env args σ).2.committed.updates = [] ∧
      (udbCommit env args σ).2.working.updates = [] := by
  refine ⟨noErrors, ["-dataMajor".toList, "seven".toList], oneUpdate, by decide, fun h => ?_,
    by decide, by decide, by decide, by decide⟩
  exact absurd (h.2 (by decide)) (by decide)

end Tx
end Unameit
