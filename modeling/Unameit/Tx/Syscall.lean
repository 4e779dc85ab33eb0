import Unameit.Tx.Commit

/-!
# Tx.Syscall — when a failed system call dooms its transaction

Once `force_rollback` is set, all further system calls fail and the transaction can only be rolled
back (`doomed_iff`).  Whether a failed call sets the flag is decided from `syscall_db_updated`,
which is saved and cleared when a call begins and restored when it ends.  So the updates of an
inner call are forgotten when it returns.  `Script.effect` says what a script does in these terms,
without flags to be saved and restored.
-/

namespace Unameit
namespace Tx

variable {U : Type*}

/-! ## What scripts leave alone -/

structure Extends (σ τ : State U) : Prop where
  committed : τ.committed = σ.committed
  version : τ.working.version = σ.working.version
  updates : ∃ l, τ.working.updates = σ.working.updates ++ l

lemma Extends.refl (σ : State U) : Extends σ σ where
  committed := rfl
  version := rfl
  updates := ⟨[], by simp⟩

variable {σ τ υ : State U}

lemma Extends.trans (h : Extends σ τ) (h' : Extends τ υ) : Extends σ υ where
  committed := h'.committed.trans h.committed
  version := h'.version.trans h.version
  updates := by
    obtain ⟨l, hl⟩ := h.updates
    obtain ⟨l', hl'⟩ := h'.updates
    exact ⟨l ++ l', by rw [hl', hl, List.append_assoc]⟩

lemma udbForceRollback_spec (σ : State U) (e : TclError) :
    (udbForceRollback σ e).forceRollback = true ∧
      (udbForceRollback σ e).working = σ.working ∧
      (udbForceRollback σ e).committed = σ.committed ∧
      (udbForceRollback σ e).syscallDbUpdated = σ.syscallDbUpdated := by
  unfold udbForceRollback
  split_ifs with h
  · exact ⟨h, rfl, rfl, rfl⟩
  · exact ⟨rfl, rfl, rfl, rfl⟩

/-! ## Effects -/

/-- What a script comes to: whether it fails, whether it makes updates itself, whether inner system
calls of it make updates, and whether a rollback is forced in the end. -/
structure Effect where
  fails : Bool
  own : Bool
  inner : Bool
  forced : Bool
  deriving DecidableEq, Repr

def Effect.ofSyscall (e : Effect) : Effect where
  fails := e.fails
  own := false
  inner := e.own || e.inner
  forced := e.forced || (e.fails && e.own)

/-- The effect of a script, which depends on whether a rollback has been forced before. -/
def Script.effect : Script U → Bool → Effect
  | .done, forced => { fails := false, own := false, inner := false, forced := forced }
  | .fails _, forced => { fails := true, own := false, inner := false, forced := forced }
  | .update _ _ rest, forced => { rest.effect forced with own := true }
  | .updateFails _ _ _, _ => { fails := true, own := true, inner := false, forced := true }
  | .caught body rest, forced =>
    let b := body.effect forced
    let r := rest.effect b.forced
    { r with own := b.own || r.own, inner := b.inner || r.inner }
  | .syscall body rest, forced =>
    -- a call is refused once a rollback has been forced
    if forced then { fails := true, own := false, inner := false, forced := true }
    else
      let b := (body.effect false).ofSyscall
      if b.fails then b
      else
        let r := rest.effect b.forced
        { r with inner := b.inner || r.inner }

lemma Script.effect_forced (s : Script U) : (s.effect true).forced = true := by
  induction s with
  | done => rfl
  | fails e => rfl
  | update kind u rest ih => exact ih
  | updateFails kind u e => rfl
  | caught body rest ihb ihr => simpa [Script.effect, ihb] using ihr
  | syscall body rest _ _ => rfl

structure Effect.Shown (e : Effect) (σ : State U) (result : TclResult × State U) : Prop
    extends Extends σ result.2 where
  fails : result.1.failed = e.fails
  forced : result.2.forceRollback = e.forced
  flag : result.2.syscallDbUpdated = (σ.syscallDbUpdated || e.own)
  updated : result.2.working.updates ≠ σ.working.updates ↔ (e.own || e.inner) = true

/-- What two parts of a script, one after the other, do to the updates. -/
theorem Extends.updated_trans (h : Extends σ τ) (h' : Extends τ υ) :
    υ.working.updates ≠ σ.working.updates ↔
      τ.working.updates ≠ σ.working.updates ∨ υ.working.updates ≠ τ.working.updates := by
  obtain ⟨l, hl⟩ := h.updates
  obtain ⟨l', hl'⟩ := h'.updates
  have hfirst : τ.working.updates = σ.working.updates ↔ l = [] := by simp [hl]
  have hsecond : υ.working.updates = τ.working.updates ↔ l' = [] := by simp [hl']
  have hboth : υ.working.updates = σ.working.updates ↔ l = [] ∧ l' = [] := by simp [hl', hl]
  tauto

/-- One part of a script after another. -/
theorem Effect.Shown.trans {b r : Effect} {first second : TclResult × State U}
    (hb : b.Shown σ first) (hr : r.Shown first.2 second) :
    Effect.Shown { r with own := b.own || r.own, inner := b.inner || r.inner } σ second where
  toExtends := hb.toExtends.trans hr.toExtends
  fails := hr.fails
  forced := hr.forced
  flag := by rw [hr.flag, hb.flag, Bool.or_assoc]
  updated := by
    rw [hb.toExtends.updated_trans hr.toExtends, hb.updated, hr.updated]
    simp only [Bool.or_eq_true]
    tauto

/-- A system call that is not refused. -/
theorem Effect.Shown.udbSyscall {e : Effect} {evalScript : State U → TclResult × State U}
    (hσ : σ.forceRollback = false) (h : e.Shown { σ with syscallDbUpdated := false }
      (evalScript { σ with syscallDbUpdated := false })) :
    e.ofSyscall.Shown σ (udbSyscall evalScript σ) := by
  unfold Tx.udbSyscall
  rw [if_neg (by simp [hσ])]
  cases heval : evalScript { σ with syscallDbUpdated := false } with
  | mk result τ =>
    rw [heval] at h
    have hflag : τ.syscallDbUpdated = e.own := by simpa using h.flag
    have hupdated : τ.working.updates ≠ σ.working.updates ↔ (e.own || e.inner) = true := h.updated
    cases result with
    | ok text =>
      have hfails : e.fails = false := h.fails.symm
      exact
        { committed := h.committed
          version := h.version
          updates := h.updates
          fails := h.fails
          forced := by simpa [Effect.ofSyscall, hfails] using h.forced
          flag := by simp [Effect.ofSyscall]
          updated := by simpa [Effect.ofSyscall] using hupdated }
    | error err =>
      have hfails : e.fails = true := h.fails.symm
      cases hown : e.own with
      | false =>
        simp only [hflag, hown, Bool.false_eq_true, if_false]
        exact
          { committed := h.committed
            version := h.version
            updates := h.updates
            fails := h.fails
            forced := by simpa [Effect.ofSyscall, hfails, hown] using h.forced
            flag := by simp [Effect.ofSyscall]
            updated := by simpa [Effect.ofSyscall] using hupdated }
      | true =>
        obtain ⟨hforce, hworking, hcommitted, -⟩ := udbForceRollback_spec τ err
        simp only [hflag, hown, if_true]
        exact
          { committed := hcommitted.trans h.committed
            version := by simpa [hworking] using h.version
            updates := by simpa [hworking] using h.updates
            fails := h.fails
            forced := by simpa [Effect.ofSyscall, hfails, hown] using hforce
            flag := by simp [Effect.ofSyscall]
            updated := by simpa [Effect.ofSyscall, hworking] using hupdated }

lemma udbSyscall_refused (hσ : σ.forceRollback = true)
    (evalScript : State U → TclResult × State U) :
    (udbSyscall evalScript σ).1.failed = true ∧ (udbSyscall evalScript σ).2 = σ := by
  simp [udbSyscall, hσ, TclResult.failed]

lemma shown_udbFinishObject (σ : State U) (kind : Kind) (u : U) (text : CString) :
    Effect.Shown { fails := false, own := true, inner := false, forced := σ.forceRollback } σ
      (.ok text, udbFinishObject σ kind u) := by
  have hupd : (udbFinishObject σ kind u).working =
      { σ.working with updates := σ.working.updates ++ [u] } := by
    cases kind with
    | other => rfl
    | item part =>
      simp only [udbFinishObject]
      split_ifs <;> rfl
  have hflags : (udbFinishObject σ kind u).committed = σ.committed ∧
      (udbFinishObject σ kind u).forceRollback = σ.forceRollback ∧
      (udbFinishObject σ kind u).syscallDbUpdated = true := by
    cases kind with
    | other => exact ⟨rfl, rfl, rfl⟩
    | item part =>
      simp only [udbFinishObject]
      split_ifs <;> exact ⟨rfl, rfl, rfl⟩
  exact
    { committed := hflags.1
      version := by simp [hupd]
      updates := ⟨[u], by simp [hupd]⟩
      fails := rfl
      forced := hflags.2.1
      flag := by simp [hflags.2.2]
      updated := by simp [hupd] }

lemma Effect.shown_refl (σ : State U) (result : TclResult) :
    Effect.Shown { fails := result.failed, own := false, inner := false, forced := σ.forceRollback }
      σ (result, σ) :=
  { Extends.refl σ with
    fails := rfl
    forced := rfl
    flag := by simp
    updated := by simp }

/-- The evaluation of a script has the effect of the script. -/
theorem Script.eval_shown (s : Script U) (σ : State U) :
    (s.effect σ.forceRollback).Shown σ (s.eval σ) := by
  induction s generalizing σ with
  | done => exact Effect.shown_refl σ (.ok [])
  | fails e => exact Effect.shown_refl σ (.error e)
  | update kind u rest ih =>
    have hfirst := shown_udbFinishObject σ kind u []
    have hrest := ih (udbFinishObject σ kind u)
    rw [hfirst.forced] at hrest
    simpa [Script.eval, Script.effect] using hfirst.trans hrest
  | updateFails kind u e =>
    have hfirst := shown_udbFinishObject σ kind u []
    obtain ⟨hforce, hworking, hcommitted, hflag⟩ :=
      udbForceRollback_spec (udbFinishObject σ kind u) e
    exact
      { committed := hcommitted.trans hfirst.committed
        version := by simpa [Script.eval, hworking] using hfirst.version
        updates := by simpa [Script.eval, hworking] using hfirst.updates
        fails := rfl
        forced := hforce
        flag := by simpa [Script.eval, Script.effect, hflag] using hfirst.flag
        updated := by simpa [Script.eval, Script.effect, hworking] using hfirst.updated }
  | caught body rest ihb ihr =>
    have hbody := ihb σ
    have hrest := ihr (body.eval σ).2
    rw [hbody.forced] at hrest
    exact hbody.trans hrest
  | syscall body rest ihb ihr =>
    simp only [Script.eval, Script.effect]
    cases hσ : σ.forceRollback with
    | true =>
      obtain ⟨hfailed, hstate⟩ := udbSyscall_refused hσ body.eval
      cases hcall : udbSyscall body.eval σ with
      | mk result τ =>
        rw [hcall] at hfailed hstate
        obtain rfl : τ = σ := hstate
        cases result with
        | ok text => simp [TclResult.failed] at hfailed
        | error e => simpa [hσ, TclResult.failed] using Effect.shown_refl τ (.error e)
    | false =>
      have hshown := (ihb { σ with syscallDbUpdated := false }).udbSyscall hσ
      simp only [hσ] at hshown
      cases hcall : udbSyscall body.eval σ with
      | mk result τ =>
        rw [hcall] at hshown
        have hfails := hshown.fails
        cases result with
        | error e =>
          simp only [TclResult.failed] at hfails
          simpa [← hfails] using hshown
        | ok text =>
          have hrest := ihr τ
          have hforced : τ.forceRollback = (body.effect false).ofSyscall.forced :=
            hshown.forced
          rw [hforced] at hrest
          simp only [← hfails, Bool.false_eq_true, if_false]
          exact hshown.trans hrest

/-! ## Doomed transactions -/

inductive Step (U : Type*)
  | script (s : Script U)
  | commit (args : List CString)
  | rollback

def Step.run (env : Checks U) : Step U → State U → TclResult × State U
  | .script s, σ => s.eval σ
  | .commit args, σ => udbCommit env args σ
  | .rollback, σ => udbDoRollback [] σ

/-- The steps at which a transaction ends: a rollback, or a commit without `-noCommit`, provided
that it is called with the right number of arguments. -/
def Step.ends : Step U → Bool
  | .script _ => false
  | .commit args =>
    let (o, rest) := parseOptions args Options.none
    !o.noCommit && rest.length ≤ 1
  | .rollback => true

def runSteps (env : Checks U) (steps : List (Step U)) (σ : State U) : State U :=
  steps.foldl (fun σ step => (step.run env σ).2) σ

/-- Until the transaction ends, every system call fails and nothing is committed; and when it ends,
all its updates are aborted.  The flag of the current call, which an outer call will restore, does
not matter. -/
def Doomed (env : Checks U) (σ : State U) : Prop :=
  ∀ (flag : Bool) (steps : List (Step U)), (∀ step ∈ steps, step.ends = false) →
    let τ := runSteps env steps { σ with syscallDbUpdated := flag }
    (∀ body : Script U, (udbSyscall body.eval τ).1.failed = true) ∧
      τ.committed = σ.committed ∧
      ∀ last : Step U, last.ends = true →
        (last.run env τ).2.committed = σ.committed ∧ (last.run env τ).2.working = σ.committed

lemma udbDoRollback_forced (result : CString) (hσ : σ.forceRollback = true) :
    (udbDoRollback result σ).2.committed = σ.committed ∧
      (udbDoRollback result σ).2.working = σ.committed := by
  simp [udbDoRollback, hσ]

/-- Once the flag is set, a commit either leaves it set and does not end the transaction, or rolls
back. -/
theorem udbCommit_forced (env : Checks U) (args : List CString) (hσ : σ.forceRollback = true) :
    (udbCommit env args σ).2.committed = σ.committed ∧
      if (Step.commit args : Step U).ends then (udbCommit env args σ).2.working = σ.committed
      else (udbCommit env args σ).2.forceRollback = true := by
  have hwith : ∀ (o : Options) (logEntry : Option CString),
      (commitWith env o logEntry σ).2.committed = σ.committed ∧
        if o.noCommit then (commitWith env o logEntry σ).2.forceRollback = true
        else (commitWith env o logEntry σ).2.working = σ.committed := by
    intro o logEntry
    unfold commitWith
    rcases setVersions_both_cases env o σ with ⟨τ, hτ, hver, -⟩ | ⟨text, τ, hτ, hver, -⟩
    · have hforce : τ.forceRollback = true := hver.forceRollback.trans hσ
      rw [hτ]
      cases o.noCommit with
      | true => exact ⟨hver.committed, hforce⟩
      | false =>
        obtain ⟨hc, hw⟩ := udbDoRollback_forced [] hforce
        simp only [Bool.false_eq_true, if_false, udbDoCommit, hforce, if_true]
        exact ⟨hc.trans hver.committed, hw.trans hver.committed⟩
    · have hforce : τ.forceRollback = true := hver.forceRollback.trans hσ
      rw [hτ]
      cases o.noCommit with
      | true => exact ⟨hver.committed, hforce⟩
      | false =>
        obtain ⟨hc, hw⟩ := udbDoRollback_forced text hforce
        exact ⟨hc.trans hver.committed, hw.trans hver.committed⟩
  unfold udbCommit Step.ends
  rcases hparse : parseOptions args Options.none with ⟨o, rest⟩
  cases rest with
  | nil =>
    have h := hwith o none
    cases hno : o.noCommit <;> simpa [hparse, hno] using h
  | cons logEntry rest =>
    cases rest with
    | nil =>
      have h := hwith o (some logEntry)
      cases hno : o.noCommit <;> simpa [hparse, hno] using h
    | cons _ _ => exact ⟨rfl, by simpa [hparse] using hσ⟩

lemma Step.run_forced (env : Checks U) (step : Step U) (hσ : σ.forceRollback = true) :
    (step.run env σ).2.committed = σ.committed ∧
      if step.ends then (step.run env σ).2.working = σ.committed
      else (step.run env σ).2.forceRollback = true := by
  cases step with
  | script s =>
    have hs := s.eval_shown σ
    refine ⟨hs.committed, ?_⟩
    have hforced := hs.forced
    rw [hσ, s.effect_forced] at hforced
    exact hforced
  | commit args => exact udbCommit_forced env args hσ
  | rollback =>
    obtain ⟨hc, hw⟩ := udbDoRollback_forced [] hσ
    exact ⟨hc, hw⟩

/-- A transaction is doomed exactly when the rollback is forced. -/
theorem doomed_iff (env : Checks U) (σ : State U) : Doomed env σ ↔ σ.forceRollback = true := by
  constructor
  · intro h
    by_contra hne
    have hdone := (h σ.syscallDbUpdated [] (by simp)).1 .done
    simp [runSteps, udbSyscall, hne, Script.eval, TclResult.failed] at hdone
  · intro hσ flag steps hsteps
    have hrun : ∀ (steps : List (Step U)) (υ : State U), υ.forceRollback = true →
        (∀ step ∈ steps, step.ends = false) →
        (runSteps env steps υ).forceRollback = true ∧
          (runSteps env steps υ).committed = υ.committed := by
      intro steps
      induction steps with
      | nil => exact fun υ hυ _ => ⟨hυ, rfl⟩
      | cons step steps ih =>
        intro υ hυ hends
        obtain ⟨hstep, hends⟩ := List.forall_mem_cons.1 hends
        have hforced := step.run_forced env hυ
        rw [hstep] at hforced
        obtain ⟨hf, hc⟩ := ih (step.run env υ).2 hforced.2 hends
        exact ⟨hf, hc.trans hforced.1⟩
    obtain ⟨hf, hc⟩ := hrun steps { σ with syscallDbUpdated := flag } hσ hsteps
    refine ⟨fun body => (udbSyscall_refused hf body.eval).1, hc, fun last hlast => ?_⟩
    have hforced := last.run_forced env hf
    rw [hlast] at hforced
    exact ⟨hforced.1.trans hc, hforced.2.trans hc⟩

/-! ## All or nothing -/

/-- The call fails with updates that only inner system calls have made, and no rollback has been
forced meanwhile. -/
def Effect.Lost (e : Effect) : Prop :=
  e.fails = true ∧ e.inner = true ∧ e.own = false ∧ e.forced = false

/-- **All or nothing.**  A system call that fails after updates dooms the transaction, in whatever
state it is made, if and only if it is refused or its updates are not all made by inner calls that
leave the flag as it is. -/
theorem syscall_dooms_iff (env : Checks U) (body : Script U) (σ : State U) :
    ((udbSyscall body.eval σ).1.failed = true →
      (udbSyscall body.eval σ).2.working.updates ≠ σ.working.updates →
        Doomed env (udbSyscall body.eval σ).2) ↔
      σ.forceRollback = true ∨ ¬ (body.effect false).Lost := by
  cases hσ : σ.forceRollback with
  | true => simp [(udbSyscall_refused hσ body.eval).2]
  | false =>
    have hshown := (body.eval_shown { σ with syscallDbUpdated := false }).udbSyscall hσ
    simp only [hσ] at hshown
    rw [hshown.fails, hshown.updated, doomed_iff, hshown.forced]
    simp only [Effect.ofSyscall, Effect.Lost]
    cases (body.effect false).fails <;> cases (body.effect false).own <;>
      cases (body.effect false).inner <;> cases (body.effect false).forced <;> simp

def innerUpdate : Script ℕ :=
  .syscall (.update (.item .data) 1 .done) (.fails { result := [], errorCode := [] })

/-- The outer call returns an error, and the update of the inner call is committed nevertheless. -/
theorem syscall_error_commits :
    ∃ (env : Checks ℕ) (body : Script ℕ) (σ : State ℕ),
      let r := udbSyscall body.eval σ
      r.1.failed = true ∧ r.2.working.updates ≠ σ.working.updates ∧ ¬ Doomed env r.2 ∧
        (udbCommit env [] r.2).1.failed = false ∧
        (udbCommit env [] r.2).2.committed.updates = [1] := by
  refine ⟨noErrors, innerUpdate, emptyState, by decide, by decide, ?_, by decide, by decide⟩
  rw [doomed_iff]
  decide

end Tx
end Unameit
