import Mathlib.Logic.Function.Basic
import Mathlib.Tactic.Common
import Unameit.Inet.Basic

/-!
# Tx.Basic — transactions and system calls

A system call (`udb_syscall`) runs a script and takes note of whether the script has updated the
database, so that an error in the middle of a call can force the whole transaction to be rolled
back.  What is known about the transaction is kept in a handful of global flags: which function
sets, saves, restores and clears which flag is what the model follows.  The contents of the updates
do not matter, and neither does how the integrity checks come to their results (`Checks`).
-/

namespace Unameit
namespace Tx

variable {U : Type*}

/-! ## State -/

/-- `TCL_ERROR`, with the result of the interpreter and `errorCode`. -/
structure TclError where
  result : CString
  errorCode : List CString
  deriving DecidableEq, Repr

abbrev TclResult := Except TclError CString

def TclResult.failed : TclResult → Bool
  | .ok _ => false
  | .error _ => true

inductive Part
  | data
  | schema
  deriving DecidableEq, Repr

structure Version where
  major : ℤ
  minor : ℤ
  micro : ℤ
  deriving DecidableEq, Repr

/-- The database: the updates that have been made, and the attributes of the class
`unameit_transaction`. -/
structure Db (U : Type*) where
  updates : List U
  version : Part → Version

inductive RestoreMode
  | noRestore
  | restoreSchema
  | restoreData
  deriving DecidableEq, Repr

/-- The static variables of transaction.c, with the database as of the last commit and as the
transaction sees it. -/
structure State (U : Type*) where
  committed : Db U
  working : Db U
  syscallDbUpdated : Bool
  txDbUpdated : Bool
  forceRollback : Bool
  schemaModified : Bool
  savedError : TclError
  /-- `tx_dmajor` and so on; there are none while `tx_class` is NULL. -/
  txVersion : Option (Part → Version)
  newTxMicro : Part → Bool
  restoreMode : RestoreMode
  /-- The entries of the log file, with the versions they are written for. -/
  log : List ((Part → Version) × Option CString)
  /-- How often `Udb_Do_Rollback` has been called. -/
  rollbacks : ℕ

def loadTranVersions (σ : State U) : State U :=
  { σ with txVersion := some (σ.txVersion.getD σ.working.version) }

inductive Kind
  | other
  | item (part : Part)
  deriving DecidableEq, Repr

def udbFinishObject (σ : State U) (kind : Kind) (update : U) : State U :=
  let σ := { σ with
    working := { σ.working with updates := σ.working.updates ++ [update] }
    txDbUpdated := true
    syscallDbUpdated := true }
  match kind with
  | .other => σ
  | .item part =>
    let σ := { σ with schemaModified := σ.schemaModified || part = .schema }
    if σ.restoreMode = .noRestore then
      { loadTranVersions σ with newTxMicro := Function.update σ.newTxMicro part true }
    else σ

/-! ## System calls -/

/-- `Udb_Force_Rollback`, with the error that the interpreter has at the moment. -/
def udbForceRollback (σ : State U) (e : TclError) : State U :=
  if σ.forceRollback then σ
  else { σ with forceRollback := true, savedError := e }

/-- `Udb_Syscall`, with the evaluation of its script.  The old value of `syscall_db_updated` is
saved and restored. -/
def udbSyscall (evalScript : State U → TclResult × State U) (σ : State U) :
    TclResult × State U :=
  if σ.forceRollback then (.error { result := [], errorCode := ["NONE".toList] }, σ)
  else
    let save := σ.syscallDbUpdated
    let (result, σ) := evalScript { σ with syscallDbUpdated := false }
    let σ :=
      match result with
      | .ok _ => σ
      | .error e => if σ.syscallDbUpdated then udbForceRollback σ e else σ
    (result, { σ with syscallDbUpdated := save })

/-- What a script does to a transaction, command by command.  A script ends at the first error
that is not caught. -/
inductive Script (U : Type*)
  /-- The end of the script. -/
  | done
  /-- A command that fails without having updated the database. -/
  | fails (e : TclError)
  /-- An object is created, changed or deleted. -/
  | update (kind : Kind) (u : U) (rest : Script U)
  /-- An object is written but its name cache entries cannot be, and the rollback is forced. -/
  | updateFails (kind : Kind) (u : U) (e : TclError)
  /-- `catch {body}`. -/
  | caught (body rest : Script U)
  /-- `udb_syscall {body}`. -/
  | syscall (body rest : Script U)
  deriving DecidableEq, Repr

def Script.eval : Script U → State U → TclResult × State U
  | .done, σ => (.ok [], σ)
  | .fails e, σ => (.error e, σ)
  | .update kind u rest, σ => rest.eval (udbFinishObject σ kind u)
  | .updateFails kind u e, σ => (.error e, udbForceRollback (udbFinishObject σ kind u) e)
  | .caught body rest, σ => rest.eval (body.eval σ).2
  | .syscall body rest, σ =>
    match udbSyscall body.eval σ with
    | (.error e, σ) => (.error e, σ)
    | (.ok _, σ) => rest.eval σ

/-! ## The end of a transaction -/

/-- What a commit takes from elsewhere: the integrity checks, which may find an error; the change
of the schema, which may fail or else makes further updates; and the conversion of texts to 32-bit
integers. -/
structure Checks (U : Type*) where
  referenceChecks : Db U → Option TclError
  uniqueChecks : Db U → Option TclError
  loopChecks : Db U → Option TclError
  inetCheckIntegrity : Db U → Option TclError
  changeSchema : Db U → Except TclError (List U)
  stringToInt32 : CString → Option ℤ

/-- `Udb_Do_Rollback`, with the result that the interpreter has at the moment.  Nothing is aborted
if nothing has been updated, and otherwise the result tells about a forced rollback only. -/
def udbDoRollback (result : CString) (σ : State U) : TclResult × State U :=
  let σ := { σ with
    txVersion := none
    newTxMicro := fun _ => false
    rollbacks := σ.rollbacks + 1 }
  let abort := { σ with schemaModified := false, forceRollback := false, working := σ.committed }
  if σ.forceRollback then (.error σ.savedError, abort)
  else if σ.txDbUpdated then (.ok result, abort)
  else (.ok result, σ)

/-- The checks that apply, one after another; the first error is returned. -/
def runChecks (env : Checks U) (σ : State U) : Option TclError :=
  let standard :=
    if σ.restoreMode ≠ .restoreData then
      (env.referenceChecks σ.working <|> env.uniqueChecks σ.working) <|>
        env.loopChecks σ.working
    else none
  standard <|>
    if σ.restoreMode = .noRestore then env.inetCheckIntegrity σ.working else none

def changeSchema (env : Checks U) (σ : State U) : Except TclError (State U) :=
  if σ.schemaModified then do
    let updates ← env.changeSchema σ.working
    return { σ with working := { σ.working with updates := σ.working.updates ++ updates } }
  else return σ

/-- A new micro version, if an item of the part has been updated. -/
def stepMicro (part : Part) (σ : State U) : State U :=
  if σ.newTxMicro part then
    let version := σ.txVersion.getD σ.working.version
    let new := { version part with micro := (version part).micro + 1 }
    { σ with
      txVersion := some (Function.update version part new)
      working := { σ.working with
        version := Function.update σ.working.version part
          { σ.working.version part with micro := new.micro } }
      newTxMicro := Function.update σ.newTxMicro part false }
  else σ

def writeLog (logEntry : Option CString) (σ : State U) : State U :=
  { σ with log := σ.log ++ [(σ.txVersion.getD σ.working.version, logEntry)] }

def udbDoCommit (env : Checks U) (logEntry : Option CString) (σ : State U) :
    TclResult × State U :=
  if σ.forceRollback then udbDoRollback [] σ
  else if !σ.txDbUpdated then (.ok [], σ)
  else
    match runChecks env σ with
    | some e => (.error e, (udbDoRollback e.result σ).2)
    | none =>
      match changeSchema env σ with
      | .error e => (.error e, (udbDoRollback e.result σ).2)
      | .ok σ =>
        let σ := writeLog logEntry (stepMicro .schema (stepMicro .data σ))
        (.ok [], { σ with
          committed := σ.working
          txDbUpdated := false
          schemaModified := false })

/-- The options of `udb_commit`: new major and minor versions, and `-noCommit`. -/
structure Options where
  major : Part → Option CString
  minor : Part → Option CString
  noCommit : Bool

def Options.none : Options where
  major _ := Option.none
  minor _ := Option.none
  noCommit := false

/-- The loop over the arguments, which goes on while there are at least two of them.  The rest of
the arguments is returned. -/
def parseOptions : List CString → Options → Options × List CString
  | arg :: value :: args, o =>
    if arg.head? ≠ some '-' then (o, arg :: value :: args)
    else if arg = "--".toList then (o, value :: args)
    else if arg = "-dataMajor".toList then
      parseOptions args { o with major := Function.update o.major .data (some value) }
    else if arg = "-dataMinor".toList then
      parseOptions args { o with minor := Function.update o.minor .data (some value) }
    else if arg = "-schemaMajor".toList then
      parseOptions args { o with major := Function.update o.major .schema (some value) }
    else if arg = "-schemaMinor".toList then
      parseOptions args { o with minor := Function.update o.minor .schema (some value) }
    else if arg = "-noCommit".toList then
      parseOptions (value :: args) { o with noCommit := true }
    else (o, arg :: value :: args)
  | args, o => (o, args)

/-- `Udb_String_To_Int32`, for an option that may be absent. -/
def optionToInt32 (env : Checks U) : Option CString → Except CString (Option ℤ)
  | Option.none => .ok Option.none
  | some text =>
    match env.stringToInt32 text with
    | some n => .ok (some n)
    | Option.none => .error ("expected integer but got \"".toList ++ text ++ "\"".toList)

/-- Writes an attribute of the class `unameit_transaction`. -/
def putVersion (part : Part) (f : Version → Version) (σ : State U) : State U :=
  { σ with working := { σ.working with
      version := Function.update σ.working.version part (f (σ.working.version part)) } }

def setTxVersion (part : Part) (f : Version → Version) (σ : State U) : State U :=
  let version := σ.txVersion.getD σ.working.version
  { σ with txVersion := some (Function.update version part (f (version part))) }

/-- A new major version starts with the minor version 0. -/
def setMajor (part : Part) : Option ℤ → State U → State U
  | Option.none, σ => σ
  | some n, σ =>
    putVersion part (fun v => { v with major := n })
      (setTxVersion part (fun v => { v with major := n, minor := 0 }) σ)

def setMinor (part : Part) : Option ℤ → State U → State U
  | Option.none, σ => σ
  | some n, σ => setTxVersion part (fun v => { v with minor := n }) σ

/-- Writes the minor version, and forces a commit.  The micro version will be incremented during
the commit, except with `-noCommit`. -/
def putMinor (part : Part) (noCommit : Bool) (σ : State U) : State U :=
  let minor := (σ.txVersion.getD σ.working.version part).minor
  let σ := putVersion part (fun v => { v with minor := minor }) σ
  let σ := setTxVersion part (fun v => { v with micro := if noCommit then 0 else -1 }) σ
  { σ with
    txDbUpdated := true
    newTxMicro := Function.update σ.newTxMicro part true }

/-- The new versions of one part.  When an option is not an integer, what has been written so far
stays written. -/
def setVersions (env : Checks U) (o : Options) (part : Part) (σ : State U) :
    Except (CString × State U) (State U) :=
  match optionToInt32 env (o.major part) with
  | .error text => .error (text, σ)
  | .ok major =>
    let σ := setMajor part major σ
    match optionToInt32 env (o.minor part) with
    | .error text => .error (text, σ)
    | .ok minor =>
      let σ := setMinor part minor σ
      if major.isSome || minor.isSome then .ok (putMinor part o.noCommit σ) else .ok σ

/-- `Udb_Commit` once the arguments are known. -/
def commitWith (env : Checks U) (o : Options) (logEntry : Option CString) (σ : State U) :
    TclResult × State U :=
  match setVersions env o .data (loadTranVersions σ) >>= setVersions env o .schema with
  | .error (text, σ) =>
    if o.noCommit then (.error { result := text, errorCode := ["NONE".toList] }, σ)
    else udbDoRollback text σ
  | .ok σ => if o.noCommit then (.ok [], σ) else udbDoCommit env logEntry σ

def usageError (command usage : CString) : TclError where
  result := []
  errorCode := ["UNAMEIT".toList, "EUSAGE".toList, command, usage]

def udbCommit (env : Checks U) (args : List CString) (σ : State U) : TclResult × State U :=
  match parseOptions args Options.none with
  | (o, []) => commitWith env o Option.none σ
  | (o, [logEntry]) => commitWith env o (some logEntry) σ
  | (_, _ :: _ :: _) => (.error (usageError "udb_commit".toList "?logEntry?".toList), σ)

end Tx
end Unameit
