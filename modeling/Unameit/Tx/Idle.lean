import Unameit.Tx.Syscall

/-!
# Tx.Idle — commits of transactions without modifications

`Udb_Do_Commit` writes a log record and commits only if `tx_db_updated` is set.  The flag should say
that the database was modified since the end of the last transaction.  `History` keeps this apart
from the flags, along a run.  A successful commit clears the flag, but `Udb_Do_Rollback` does not:
after a rollback the flag still tells about the modifications that were thrown away, and in restore
mode the flag is set even by an update that is refused.  Until the next successful commit a commit
then goes through although nothing was modified (`udbCommit_idle_iff`).
-/

namespace Unameit
namespace Tx

variable {U : Type*} {σ τ υ : State U}

/-! ## Acts -/

/-- `Udb_Transaction`, without the name of the client and the principal. -/
def udbTransaction : List CString → State U → TclResult × State U
  | [_clientName], σ => udbDoRollback [] σ
  | [option, mode], σ =>
    if option = "-restore_mode".toList then
      udbDoRollback [] { σ with
        restoreMode := if mode = "schema".toList then .restoreSchema else .restoreData }
    else (.error (usageError "udb_transaction".toList "clientName".toList), σ)
  | _, σ => (.error (usageError "udb_transaction".toList "clientName".toList), σ)

/-- `Udb_Finish_Object` of an item when `dbt_finish_object` returns NULL. -/
def udbFinishRefused (part : Part) (σ : State U) : State U :=
  if σ.restoreMode = .noRestore then
    { loadTranVersions σ with
      schemaModified := σ.schemaModified || part = .schema
      newTxMicro := Function.update σ.newTxMicro part true }
  else { σ with txDbUpdated := true, syscallDbUpdated := true }

/-- What happens on a connection: a step of a transaction, the beginning of the next one, or an
update that is refused.  A restore creates its items outside of system calls, so that a refused
update is an act of its own. -/
inductive Act (U : Type*)
  | step (step : Step U)
  | transaction (args : List CString)
  | refused (part : Part)

def Act.run (env : Checks U) : Act U → State U → State U
  | .step s, σ => (s.run env σ).2
  | .transaction args, σ => (udbTransaction args σ).2
  | .refused part, σ => udbFinishRefused part σ

/-! ## Histories -/

/-- A version of the part is written, maybe before another option turns out not to be an integer. -/
def Options.writes (env : Checks U) (o : Options) (part : Part) : Bool :=
  match o.major part with
  | some text => (env.stringToInt32 text).isSome
  | Option.none => (o.minor part).any fun text => (env.stringToInt32 text).isSome

/-- The versions of the part `data` come first. -/
def commitWrites (env : Checks U) (args : List CString) : Bool :=
  let (o, rest) := parseOptions args Options.none
  decide (rest.length ≤ 1) &&
    (o.writes env .data || (decide (o.Valid env .data) && o.writes env .schema))

/-- All versions of a part are changed, and `tx_db_updated` is set. -/
def Options.changes (env : Checks U) (o : Options) : Bool :=
  decide (o.Valid env .data) &&
    (o.given .data || (decide (o.Valid env .schema) && o.given .schema))

def commitChanges (env : Checks U) (args : List CString) : Bool :=
  let (o, rest) := parseOptions args Options.none
  decide (rest.length ≤ 1) && o.changes env

def Script.updates (s : Script U) (σ : State U) : Bool :=
  σ.working.updates.length < (s.eval σ).2.working.updates.length

/-- The database is modified, or a version is changed. -/
def Act.modifies (env : Checks U) : Act U → State U → Bool
  | .step (.script s), σ => s.updates σ
  | .step (.commit args), _ => commitWrites env args
  | .step .rollback, _ => false
  | .transaction _, _ => false
  | .refused _, _ => false

/-- The acts that set `tx_db_updated`. -/
def Act.marks (env : Checks U) : Act U → State U → Bool
  | .step (.script s), σ => s.updates σ
  | .step (.commit args), _ => commitChanges env args
  | .step .rollback, _ => false
  | .transaction _, _ => false
  | .refused _, σ => σ.restoreMode ≠ .noRestore

/-- What has happened: a modification since the end of the last transaction; and an update, a change
of versions or an update refused in restore mode since the last successful commit. -/
structure History where
  touched : Bool
  marked : Bool
  deriving DecidableEq, Repr

/-- The history after an act.  A transaction ends when a log record is written, and when it is
rolled back. -/
def Act.note (env : Checks U) (a : Act U) (σ : State U) (h : History) : History :=
  let τ := a.run env σ
  if σ.log.length < τ.log.length then { touched := false, marked := false }
  else
    { touched := (h.touched || a.modifies env σ) && !decide (σ.rollbacks < τ.rollbacks)
      marked := h.marked || a.marks env σ }

def runActs (env : Checks U) (acts : List (Act U)) (s : State U × History) : State U × History :=
  acts.foldl (fun s a => (a.run env s.1, a.note env s.1 s.2)) s

variable (env : Checks U)

/-! ## What sets the flag -/

/-- A log record is written and the flag is cleared, or the flag is set if there is a mark. -/
inductive Flagged (mark : Bool) (σ τ : State U) : Prop
  | logged (log : σ.log.length < τ.log.length) (flag : τ.txDbUpdated = false)
  | kept (log : τ.log = σ.log) (flag : τ.txDbUpdated = (σ.txDbUpdated || mark))

lemma Flagged.of_versioned {mark : Bool} (hver : Versioned σ τ)
    (hflag : τ.txDbUpdated = (σ.txDbUpdated || mark)) (h : Flagged false τ υ) :
    Flagged mark σ υ := by
  cases h with
  | logged hlog hclear => exact .logged (hver.log ▸ hlog) hclear
  | kept hlog hsame => exact .kept (hlog.trans hver.log) (by rw [hsame, hflag, Bool.or_false])

/-- A part of a script, in which the flag is set exactly by updates. -/
structure Marked (σ τ : State U) : Prop extends Extends σ τ where
  log : τ.log = σ.log
  flag : τ.txDbUpdated = true ↔ σ.txDbUpdated = true ∨ τ.working.updates ≠ σ.working.updates

lemma Marked.refl (σ : State U) : Marked σ σ :=
  { Extends.refl σ with log := rfl, flag := by simp }

lemma Marked.trans (h : Marked σ τ) (h' : Marked τ υ) : Marked σ υ :=
  { h.toExtends.trans h'.toExtends with
    log := h'.log.trans h.log
    flag := by
      rw [h.toExtends.updated_trans h'.toExtends, h'.flag, h.flag]
      tauto }

lemma marked_udbFinishObject (σ : State U) (kind : Kind) (u : U) :
    Marked σ (udbFinishObject σ kind u) := by
  have hshown := shown_udbFinishObject σ kind u []
  have hflags : (udbFinishObject σ kind u).log = σ.log ∧
      (udbFinishObject σ kind u).txDbUpdated = true := by
    cases kind with
    | other => exact ⟨rfl, rfl⟩
    | item part =>
      simp only [udbFinishObject]
      split_ifs <;> exact ⟨rfl, rfl⟩
  exact
    { hshown.toExtends with
      log := hflags.1
      flag := iff_of_true hflags.2 (.inr (hshown.updated.2 rfl)) }

lemma marked_udbForceRollback (σ : State U) (e : TclError) : Marked σ (udbForceRollback σ e) := by
  unfold udbForceRollback
  split_ifs with h
  · exact .refl σ
  · exact { Marked.refl σ with }

lemma marked_udbSyscall {evalScript : State U → TclResult × State U}
    (h : ∀ σ, Marked σ (evalScript σ).2) (σ : State U) : Marked σ (udbSyscall evalScript σ).2 := by
  unfold udbSyscall
  split_ifs with hforce
  · exact .refl σ
  · have heval := h { σ with syscallDbUpdated := false }
    generalize evalScript { σ with syscallDbUpdated := false } = r at heval ⊢
    rcases r with ⟨result, τ⟩
    have hτ : Marked σ τ := { heval with }
    cases result with
    | ok text => exact { hτ with }
    | error e =>
      have hforced : Marked σ (if τ.syscallDbUpdated then udbForceRollback τ e else τ) := by
        split_ifs
        · exact hτ.trans (marked_udbForceRollback τ e)
        · exact hτ
      exact { hforced with }

lemma Script.eval_marked (s : Script U) (σ : State U) : Marked σ (s.eval σ).2 := by
  induction s generalizing σ with
  | done => exact .refl σ
  | fails e => exact .refl σ
  | update kind u rest ih => exact (marked_udbFinishObject σ kind u).trans (ih _)
  | updateFails kind u e =>
    exact (marked_udbFinishObject σ kind u).trans (marked_udbForceRollback _ e)
  | caught body rest ihb ihr => exact (ihb σ).trans (ihr _)
  | syscall body rest ihb ihr =>
    have hcall := marked_udbSyscall ihb σ
    simp only [Script.eval]
    generalize udbSyscall body.eval σ = r at hcall ⊢
    rcases r with ⟨result, τ⟩
    cases result with
    | error e => exact hcall
    | ok text => exact hcall.trans (ihr τ)

lemma Script.eval_flagged (s : Script U) (σ : State U) :
    Flagged (s.updates σ) σ (s.eval σ).2 := by
  have hmarked := s.eval_marked σ
  have hgrown : (s.eval σ).2.working.updates ≠ σ.working.updates ↔ s.updates σ = true := by
    rcases hmarked.updates with ⟨l, hl⟩
    simp [Script.updates, hl, List.length_pos_iff]
  refine .kept hmarked.log (Bool.eq_iff_iff.2 ?_)
  rw [hmarked.flag, hgrown, Bool.or_eq_true]

/-! ## The end of a transaction -/

lemma udbDoRollback_flagged (text : CString) (σ : State U) :
    (udbDoRollback text σ).2.log = σ.log ∧ Flagged false σ (udbDoRollback text σ).2 := by
  unfold udbDoRollback
  cases σ.forceRollback <;> cases hflag : σ.txDbUpdated <;>
    exact ⟨rfl, .kept rfl (by simp [hflag])⟩

lemma udbTransaction_flagged (args : List CString) (σ : State U) :
    Flagged false σ (udbTransaction args σ).2 := by
  have husage : Flagged false σ σ := .kept rfl (by simp)
  rcases args with - | ⟨option, - | ⟨mode, - | ⟨_, args⟩⟩⟩
  · exact husage
  · exact (udbDoRollback_flagged [] σ).2
  · by_cases hoption : option = "-restore_mode".toList
    · rw [udbTransaction, if_pos hoption]
      refine .of_versioned ?_ ?_ (udbDoRollback_flagged [] _).2
      · exact ⟨rfl, rfl, rfl, rfl, rfl⟩
      · simp
    · rw [udbTransaction, if_neg hoption]
      exact husage
  · exact husage

/-- Whether nothing but the flag keeps `Udb_Do_Commit` from going through. -/
def Ready (σ : State U) : Prop :=
  σ.forceRollback = false ∧ runChecks env σ = none ∧ ∃ τ, changeSchema env σ = .ok τ

lemma udbDoCommit_flagged (logEntry : Option CString) (σ : State U) :
    Flagged false σ (udbDoCommit env logEntry σ).2 ∧
      (σ.log.length < (udbDoCommit env logEntry σ).2.log.length ↔
        σ.txDbUpdated = true ∧ Ready env σ) := by
  have habort : ∀ text, Flagged false σ (udbDoRollback text σ).2 ∧
      ¬ σ.log.length < (udbDoRollback text σ).2.log.length := by
    intro text
    rcases udbDoRollback_flagged text σ with ⟨hlog, hflagged⟩
    exact ⟨hflagged, by simp [hlog]⟩
  unfold udbDoCommit Ready
  cases hforce : σ.forceRollback with
  | true => simpa using habort []
  | false =>
    cases hflag : σ.txDbUpdated with
    | false =>
      have hsame : Flagged false σ σ := .kept rfl (by simp)
      simpa using hsame
    | true =>
      simp only [Bool.false_eq_true, if_false, Bool.not_true, true_and]
      cases hchecks : runChecks env σ with
      | some e => simpa using habort e.result
      | none =>
        cases hschema : changeSchema env σ with
        | error e => simpa using habort e.result
        | ok τ =>
          have hlog := ((versioned_stepMicro .data τ).trans (versioned_stepMicro .schema _)).log
          have hlt : σ.log.length <
              (writeLog logEntry (stepMicro .schema (stepMicro .data τ))).log.length := by
            simp [writeLog, hlog, (changeSchema_keeps hschema).2.2]
          exact ⟨.logged hlt rfl, iff_of_true hlt ⟨rfl, τ, rfl⟩⟩

lemma ready_loadTranVersions (σ : State U) :
    Ready env (loadTranVersions σ) ↔ Ready env σ := by
  refine and_congr_right' (and_congr_right' ?_)
  unfold changeSchema
  show (∃ τ, (if σ.schemaModified then _ else _) = _) ↔ _
  split_ifs
  · show (∃ τ, (env.changeSchema σ.working >>= _) = _) ↔ _
    cases env.changeSchema σ.working with
    | error e => exact iff_of_false (by rintro ⟨τ, h⟩; cases h) (by rintro ⟨τ, h⟩; cases h)
    | ok l => exact iff_of_true ⟨_, rfl⟩ ⟨_, rfl⟩
  · exact iff_of_true ⟨_, rfl⟩ ⟨_, rfl⟩

/-- `Udb_Commit`: first the versions, then the end of the transaction, if it ends. -/
theorem commitWith_flagged (o : Options) (logEntry : Option CString) (σ : State U) :
    Flagged (o.changes env) σ (commitWith env o logEntry σ).2 ∧ (o.changes env = false →
      (σ.log.length < (commitWith env o logEntry σ).2.log.length ↔ σ.txDbUpdated = true ∧
        o.noCommit = false ∧ (∀ part, o.Valid env part) ∧ Ready env σ)) := by
  unfold commitWith
  rcases setVersions_both_cases env o σ with
    ⟨τ, hτ, hver, hvalid, hflag, hkeep⟩ | ⟨text, τ, hτ, hver, hbad, hflag⟩
  · have hchanges : o.changes env = (o.given .data || o.given .schema) := by
      simp [Options.changes, hvalid]
    rw [Bool.or_assoc, ← hchanges] at hflag
    rw [hτ]
    cases hno : o.noCommit with
    | true => exact ⟨.kept hver.log hflag, by simp [hver.log]⟩
    | false =>
      refine ⟨.of_versioned hver hflag (udbDoCommit_flagged env logEntry τ).1, fun hsame => ?_⟩
      have hτσ : τ = loadTranVersions σ := by
        rw [hchanges, Bool.or_eq_false_iff] at hsame
        refine hkeep fun part => ?_
        cases part with
        | data => exact hsame.1
        | schema => exact hsame.2
      have hcommit := (udbDoCommit_flagged env logEntry (loadTranVersions σ)).2
      rw [ready_loadTranVersions] at hcommit
      subst hτσ
      simp only [hvalid, implies_true, true_and]
      exact hcommit
  · have hchanges : o.changes env = (decide (o.Valid env .data) && o.given .data) := by
      have hschema : o.Valid env .data → ¬ o.Valid env .schema := fun hd hs =>
        hbad fun part => by cases part <;> assumption
      by_cases hd : o.Valid env .data
      · simp [Options.changes, hd, hschema hd]
      · simp [Options.changes, hd]
    rw [← hchanges] at hflag
    rcases udbDoRollback_flagged text τ with ⟨hlog, hroll⟩
    rw [hτ]
    cases hno : o.noCommit with
    | true => exact ⟨.kept hver.log hflag, by simp [hver.log]⟩
    | false => exact ⟨.of_versioned hver hflag hroll, fun _ => by simp [hlog, hver.log, hbad]⟩

/-- Whether nothing but the flag keeps a call of `udb_commit` from going through. -/
def Passes (args : List CString) (σ : State U) : Prop :=
  (parseOptions args Options.none).2.length ≤ 1 ∧
    (parseOptions args Options.none).1.noCommit = false ∧
    (∀ part, (parseOptions args Options.none).1.Valid env part) ∧ Ready env σ

lemma udbCommit_flagged (args : List CString) (σ : State U) :
    Flagged (commitChanges env args) σ (udbCommit env args σ).2 ∧ (commitChanges env args = false →
      (σ.log.length < (udbCommit env args σ).2.log.length ↔
        σ.txDbUpdated = true ∧ Passes env args σ)) := by
  unfold udbCommit commitChanges Passes
  rcases parseOptions args Options.none with ⟨o, rest⟩
  rcases rest with - | ⟨logEntry, - | ⟨_, rest⟩⟩
  · simpa using commitWith_flagged env o none σ
  · simpa using commitWith_flagged env o (some logEntry) σ
  · exact ⟨.kept rfl (by simp), by simp⟩

/-! ## Runs -/

lemma Act.run_flagged (a : Act U) (σ : State U) :
    Flagged (a.marks env σ) σ (a.run env σ) := by
  cases a with
  | step s =>
    cases s with
    | script s => exact s.eval_flagged σ
    | commit args => exact (udbCommit_flagged env args σ).1
    | rollback => exact (udbDoRollback_flagged [] σ).2
  | transaction args => exact udbTransaction_flagged args σ
  | refused part =>
    simp only [Act.run, Act.marks, udbFinishRefused]
    split_ifs with hmode
    · exact .kept rfl (by simp [hmode, loadTranVersions])
    · exact .kept rfl (by simp [hmode])

lemma runActs_marked (acts : List (Act U)) {s : State U × History}
    (h : s.1.txDbUpdated = s.2.marked) :
    (runActs env acts s).1.txDbUpdated = (runActs env acts s).2.marked := by
  induction acts generalizing s with
  | nil => exact h
  | cons a acts ih =>
    refine ih ?_
    show (a.run env s.1).txDbUpdated = (a.note env s.1 s.2).marked
    unfold Act.note
    cases a.run_flagged env s.1 with
    | logged hlog hclear => simp only [hlog, if_true, hclear]
    | kept hlog hflag => simp [hlog, hflag, h]

variable {env} in
lemma Options.writes_of_given {o : Options} {part : Part}
    (hvalid : o.Valid env part) (h : o.given part = true) : o.writes env part = true := by
  unfold Options.writes
  cases hmajor : o.major part with
  | some text => exact hvalid.1 text hmajor
  | none =>
    cases hminor : o.minor part with
    | some text => simpa using hvalid.2 text hminor
    | none => simp [Options.given, hmajor, hminor] at h

variable {env} in
lemma commitWrites_of_changes {args : List CString}
    (h : commitChanges env args = true) : commitWrites env args = true := by
  unfold commitChanges Options.changes at h
  unfold commitWrites
  simp only [Bool.and_eq_true, Bool.or_eq_true, decide_eq_true_eq] at h ⊢
  rcases h with ⟨hrest, hdata, hgiven | ⟨hschema, hgiven⟩⟩
  · exact ⟨hrest, .inl (Options.writes_of_given hdata hgiven)⟩
  · exact ⟨hrest, .inr ⟨hdata, Options.writes_of_given hschema hgiven⟩⟩

/-- **Idle commits.**  In every run a call of `udb_commit` that writes a log record commits a
modification or a change of a version made since the end of the last transaction, unless the flag
tells about something before that end or about a refused update, nothing has been modified since,
and nothing else stops the commit. -/
theorem udbCommit_idle_iff {σ₀ : State U} (h₀ : σ₀.txDbUpdated = false)
    (acts : List (Act U)) (args : List CString) {σ : State U} {h : History}
    (hrun : runActs env acts (σ₀, ⟨false, false⟩) = (σ, h)) :
    (σ.log.length < (udbCommit env args σ).2.log.length →
        h.touched = true ∨ commitWrites env args = true) ↔
      h.marked = false ∨ h.touched = true ∨ commitWrites env args = true ∨
        ¬ Passes env args σ := by
  have hflag : σ.txDbUpdated = h.marked := by
    simpa [hrun] using runActs_marked env acts (s := (σ₀, ⟨false, false⟩)) h₀
  cases hwrites : commitWrites env args with
  | true => simp
  | false =>
    have hchanges : commitChanges env args = false := by
      rw [Bool.eq_false_iff]
      intro hc
      simp [commitWrites_of_changes hc] at hwrites
    rw [(udbCommit_flagged env args σ).2 hchanges, hflag]
    cases h.marked <;> cases h.touched <;> simp

/-- An update is committed, and the next commit has nothing to do. -/
theorem udbCommit_idle_iff_update :
    ¬ ((runActs noErrors [.step (.script (.update (.item .data) 1 .done)), .step (.commit [])]
        (emptyState, ⟨false, false⟩)).1.log.length <
      (udbCommit noErrors [] (runActs noErrors [.step (.script (.update (.item .data) 1 .done)),
        .step (.commit [])] (emptyState, ⟨false, false⟩)).1).2.log.length) := by
  intro hlogs
  have hjustified := (udbCommit_idle_iff noErrors (show emptyState.txDbUpdated = false from rfl)
    [.step (.script (.update (.item .data) 1 .done)), .step (.commit [])] [] rfl).2
      (.inl (by decide)) hlogs
  exact absurd hjustified (by decide)

/-- An update is rolled back, and the next transaction begins.  A commit writes a log record and
commits, although nothing has been modified since. -/
theorem udbCommit_after_rollback : ∃ σ h,
    runActs noErrors [.step (.script (.update (.item .data) 1 .done)), .step .rollback,
      .transaction ["client".toList]] (emptyState, ⟨false, false⟩) = (σ, h) ∧
    σ.working.updates = σ.committed.updates ∧ h.touched = false ∧ commitWrites noErrors [] = false ∧
    σ.log.length = 0 ∧ (udbCommit noErrors [] σ).2.log.length = 1 :=
  ⟨_, _, rfl, by decide, by decide, by decide, by decide, by decide⟩

end Tx
end Unameit
