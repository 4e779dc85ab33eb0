import Unameit.Inet.Basic
import Unameit.Lib.Pool
import Unameit.Lib.Queue

/-!
# Refint — pointer attributes and their relation objects

Every value of a pointer attribute that is subject to referential integrity is mirrored by *relation
objects*: one for each item the value points at, with the pointing item as `lhs` and the item
pointed at as `rhs`.  All relations with one `rhs` and one referential action hang in a queue whose
head is `rhs.backp/<action>`, so that the deletion of an item finds what it must cascade to,
nullify, or leave for the check at commit.

Items are identified with their uuids.  The value of a scalar attribute is a list with at most one
element.
-/

namespace Unameit
namespace Refint

open Function (update)

/-- The referential actions that keep relations: what the deletion of the item pointed at does. -/
inductive Action
  | block
  | cascade
  | nullify
  deriving DecidableEq, Repr

inductive Kind
  | scalar
  | vector
  deriving DecidableEq, Repr

/-- What the code asks the schema.  Classes and attributes are given by their names. -/
structure Schema where
  /-- The attributes that have a relation class. -/
  attributes : List CString
  /-- `Udb_Get_Relattributes`: the pointer attributes of a class whose action is not `Network`. -/
  relattributes : CString → List CString
  relattributes_subset : ∀ cname, relattributes cname ⊆ attributes
  relattributes_nodup : ∀ cname, (relattributes cname).Nodup
  /-- The domain type of an attribute. -/
  kind : CString → Kind
  /-- `Udb_Get_Relaction`, of a class and an attribute. -/
  relaction : CString → CString → Action
  /-- Whether items of the last class are in the domain of the attribute (`Udb_ISA`). -/
  isa : CString → CString → CString → Bool
  /-- `UNAMEIT_DETECT_LOOPS`. -/
  detectLoops : CString → CString → Bool
  /-- `UNAMEIT_COMPUTED`. -/
  computed : CString → CString → Bool
  /-- `Udb_Class_Is_Readonly`. -/
  readonly : CString → Bool

abbrev RelId := CString × ℕ

/-- Why a call does not return normally: one of the errors of the system calls, a failed check of a
database operation, or a loop that does not come to an end. -/
inductive Stop
  | enxitem (uuid : DbObject)
  | eusedUuid (uuid : DbObject)
  | enotDeleted (uuid : DbObject)
  | ereadonly (uuid : DbObject) (cname : CString)
  | enoattr (uuid : DbObject) (aname : CString)
  | enotRefUuid (uuid : DbObject) (aname : CString) (input : List DbObject)
  | enxRefItem (uuid : DbObject) (aname : CString) (ref : DbObject)
  | edomain (uuid : DbObject) (aname : CString) (ref : DbObject)
  | check
  | endless
  deriving DecidableEq, Repr

/-- The items of the database: those that exist, with the `deleted` mark and the values of the
pointer attributes.  The values of a deleted item are kept. -/
structure Items where
  objects : List DbObject
  cls : DbObject → CString
  deleted : DbObject → Bool
  value : DbObject → CString → List DbObject

/-- `Udb_Find_Object` finds the item: it exists and is not deleted. -/
def Items.Alive (I : Items) (o : DbObject) : Prop :=
  o ∈ I.objects ∧ I.deleted o = false

instance (I : Items) (o : DbObject) : Decidable (I.Alive o) :=
  inferInstanceAs (Decidable (_ ∧ _))

/-- The relation objects.  `links` has their attributes `next` and `prev`, and the attributes
`backp/<action>` of the items; a relation on the free list of its class has no `lhs`. -/
structure Relations where
  lhs : RelId → Option DbObject
  rhs : RelId → Option DbObject
  links : Links DbObject Action RelId
  pool : CString → Pool

/-- The database and the tables of checks that are due at commit.  `loopTable` has the items to
start from for each attribute. -/
structure State where
  items : Items
  relations : Relations
  refTable : List DbObject
  loopTable : List (CString × DbObject)

def State.empty : State :=
  { items :=
      { objects := []
        cls := fun _ => []
        deleted := fun _ => false
        value := fun _ _ => [] }
    relations :=
      { lhs := fun _ => none
        rhs := fun _ => none
        links :=
          { head := fun _ _ => none
            next := fun _ => none
            prev := fun _ => none }
        pool := fun _ => { free := [], next := 0 } }
    refTable := []
    loopTable := [] }

/-! ## Single relations -/

def buildRelation (R : Relations) (r : RelId) (rhs : DbObject) (action : Action) : Relations :=
  { R with
    rhs := update R.rhs r (some rhs)
    links := R.links.push rhs action r }

def newRelation (R : Relations) (aname : CString) (lhs rhs : DbObject) (action : Action) :
    Relations :=
  let taken := (R.pool aname).take
  let r : RelId := (aname, taken.1)
  buildRelation
    { R with
      lhs := update R.lhs r (some lhs)
      pool := update R.pool aname taken.2 }
    r rhs action

/-- `Update_Relation`: unlink the relation, and either link it under a new `rhs` or put it on the
free list. -/
def updateRelation (R : Relations) (r : RelId) (rhs : DbObject) (newrhs : Option DbObject)
    (action : Action) : Except Stop Relations :=
  match R.links.unlink rhs action r with
  | none => .error .check
  | some links =>
    match newrhs with
    | some o => .ok (buildRelation { R with links } r o action)
    | none =>
      .ok
        { R with
          links
          lhs := update R.lhs r none
          pool := update R.pool r.1 ((R.pool r.1).give r.2) }

def findRelation (R : Relations) (aname : CString) (lhs : DbObject) : Option RelId :=
  ((List.range (R.pool aname).next).map fun n => (aname, n)).find? fun r => R.lhs r = some lhs

def selectRelations (R : Relations) (aname : CString) (lhs : DbObject) : List RelId :=
  ((List.range (R.pool aname).next).map fun n => (aname, n)).filter fun r => R.lhs r = some lhs

/-! ## The relations of one value -/

def relateScalar (R : Relations) (lhs : DbObject) (aname : CString) (rhs : Option DbObject)
    (action : Action) (newObject : Bool) : Except Stop Relations :=
  match if newObject then none else findRelation R aname lhs with
  | some r =>
    match R.rhs r with
    | none => .error .check
    | some oldrhs => updateRelation R r oldrhs rhs action
  | none =>
    match rhs with
    | some o => .ok (newRelation R aname lhs o action)
    | none => .ok R

/-- The loop of `Update_Vector_Relation` over the old relations: one whose `rhs` is in the table is
kept and trimmed from the table, any other is freed. -/
def trimRelations (action : Action) :
    Relations → List RelId → List DbObject → Except Stop (Relations × List DbObject)
  | R, [], table => .ok (R, table)
  | R, r :: rest, table =>
    match R.rhs r with
    | none => .error .check
    | some elem =>
      if elem ∈ table then trimRelations action R rest (table.erase elem)
      else
        match updateRelation R r elem none action with
        | .error e => .error e
        | .ok R => trimRelations action R rest table

def newRelations (R : Relations) (aname : CString) (lhs : DbObject) (action : Action)
    (table : List DbObject) : Relations :=
  table.foldl (fun R o => newRelation R aname lhs o action) R

/-- The database part of `Update_Vector_Relation`; the second component is what is new in the
value. -/
def relateVector (R : Relations) (lhs : DbObject) (aname : CString) (rhs : List DbObject)
    (action : Action) (newObject : Bool) : Except Stop (Relations × List DbObject) :=
  match
    if newObject then .ok (R, rhs.dedup)
    else trimRelations action R (selectRelations R aname lhs) rhs.dedup with
  | .error e => .error e
  | .ok (R, table) => .ok (newRelations R aname lhs action table, table)

def addLoopCheck (σ : State) (object : DbObject) (aname : CString) : State :=
  { σ with
    loopTable :=
      if (aname, object) ∈ σ.loopTable then σ.loopTable else (aname, object) :: σ.loopTable }

def maybeAddLoopCheck (S : Schema) (σ : State) (object : DbObject) (aname : CString) : State :=
  if S.detectLoops (σ.items.cls object) aname then addLoopCheck σ object aname else σ

def dropLoopCheck (σ : State) (object : DbObject) : State :=
  { σ with loopTable := σ.loopTable.filter fun entry => entry.2 ≠ object }

/-- `Update_Scalar_Relation`.  The loop check starts from the item pointed at. -/
def updateScalarRelation (S : Schema) (σ : State) (lhs : DbObject) (aname : CString)
    (rhs : Option DbObject) (newObject dontLoopcheck : Bool) : Except Stop State :=
  match relateScalar σ.relations lhs aname rhs (S.relaction (σ.items.cls lhs) aname) newObject with
  | .error e => .error e
  | .ok R =>
    match rhs with
    | some o =>
      if newObject = false ∧ dontLoopcheck = false then
        .ok (maybeAddLoopCheck S { σ with relations := R } o aname)
      else .ok { σ with relations := R }
    | none => .ok { σ with relations := R }

/-- `Update_Vector_Relation`.  The loop check starts from the pointing item, and is only made if
the value has new elements. -/
def updateVectorRelation (S : Schema) (σ : State) (lhs : DbObject) (aname : CString)
    (rhs : List DbObject) (newObject dontLoopcheck : Bool) : Except Stop State :=
  match relateVector σ.relations lhs aname rhs (S.relaction (σ.items.cls lhs) aname) newObject with
  | .error e => .error e
  | .ok (R, table) =>
    if table ≠ [] ∧ newObject = false ∧ dontLoopcheck = false then
      .ok (maybeAddLoopCheck S { σ with relations := R } lhs aname)
    else .ok { σ with relations := R }

/-- The `switch` on the domain type in `Udb_Update_Relations` and `Drop_Lhs_Relations`. -/
def relateValue (S : Schema) (σ : State) (lhs : DbObject) (aname : CString)
    (value : List DbObject) (newObject dontLoopcheck : Bool) : Except Stop State :=
  match S.kind aname with
  | .scalar => updateScalarRelation S σ lhs aname value.head? newObject dontLoopcheck
  | .vector => updateVectorRelation S σ lhs aname value newObject dontLoopcheck

/-- `Udb_Update_Relations`, over the table of attribute values. -/
def udbUpdateRelations (S : Schema) (object : DbObject) (newObject dontLoopcheck : Bool) :
    State → List (CString × List DbObject) → Except Stop State
  | σ, [] => .ok σ
  | σ, (aname, value) :: rest =>
    match relateValue S σ object aname value newObject dontLoopcheck with
    | .error e => .error e
    | .ok σ => udbUpdateRelations S object newObject dontLoopcheck σ rest

/-! ## Deletion -/

def dropLhsRelations (S : Schema) (σ : State) (lhs : DbObject) : Except Stop State :=
  udbUpdateRelations S lhs false true σ
    ((S.relattributes (σ.items.cls lhs)).map fun aname => (aname, []))

/-- `Nullify_Attribute`: the value without `rhs`. -/
def nullifyAttribute (S : Schema) (I : Items) (lhs : DbObject) (aname : CString)
    (rhs : DbObject) : Items :=
  let value :=
    match S.kind aname with
    | .vector => (I.value lhs aname).filter fun o => o ≠ rhs
    | .scalar => []
  { I with value := update I.value lhs (update (I.value lhs) aname value) }

/-- The first loop of `Process_Rhs_Relations`: delete the `lhs` of the head of the queue until the
queue is empty.  The first argument bounds the number of rounds. -/
def cascadeLoop (unameitDelete : State → DbObject → Except Stop State) (rhs : DbObject) :
    ℕ → State → Except Stop State
  | 0, _ => .error .endless
  | fuel + 1, σ =>
    match σ.relations.links.head rhs .cascade with
    | none => .ok σ
    | some r =>
      match σ.relations.lhs r with
      | none => .error .check
      | some lhs =>
        match unameitDelete σ lhs with
        | .error e => .error e
        | .ok σ => cascadeLoop unameitDelete rhs fuel σ

def nullifyLoop (S : Schema) (rhs : DbObject) : ℕ → State → Except Stop State
  | 0, _ => .error .endless
  | fuel + 1, σ =>
    match σ.relations.links.head rhs .nullify with
    | none => .ok σ
    | some r =>
      match σ.relations.lhs r with
      | none => .error .check
      | some lhs =>
        match updateRelation σ.relations r rhs none .nullify with
        | .error e => .error e
        | .ok R =>
          nullifyLoop S rhs fuel
            { σ with
              items := nullifyAttribute S σ.items lhs r.1 rhs
              relations := R }

def addReferenceCheck (σ : State) (object : DbObject) : State :=
  { σ with refTable := if object ∈ σ.refTable then σ.refTable else object :: σ.refTable }

def Relations.created (S : Schema) (R : Relations) : List RelId :=
  S.attributes.flatMap fun aname => (List.range (R.pool aname).next).map fun n => (aname, n)

def processRhsRelations (S : Schema) (unameitDelete : State → DbObject → Except Stop State)
    (σ : State) (rhs : DbObject) : Except Stop State :=
  match cascadeLoop unameitDelete rhs (σ.items.objects.length + 1) σ with
  | .error e => .error e
  | .ok σ =>
    match nullifyLoop S rhs ((σ.relations.created S).length + 1) σ with
    | .error e => .error e
    | .ok σ =>
      .ok (if σ.relations.links.head rhs .block = none then σ else addReferenceCheck σ rhs)

def Items.markDeleted (I : Items) (o : DbObject) : Items :=
  { I with deleted := update I.deleted o true }

def udbDeleteObject (S : Schema) (unameitDelete : State → DbObject → Except Stop State)
    (σ : State) (object : DbObject) : Except Stop State :=
  match dropLhsRelations S σ object with
  | .error e => .error e
  | .ok σ =>
    let σ := dropLoopCheck σ object
    processRhsRelations S unameitDelete { σ with items := σ.items.markDeleted object } object

/-- `Udb_Delete`.  The fuel bounds the depth of cascading. -/
def udbDelete (S : Schema) : ℕ → State → DbObject → Except Stop State
  | 0, _, _ => .error .endless
  | fuel + 1, σ, uuid =>
    if ¬ σ.items.Alive uuid then .error (.enxitem uuid)
    else if S.readonly (σ.items.cls uuid) then .error (.ereadonly uuid (σ.items.cls uuid))
    else udbDeleteObject S (udbDelete S fuel) σ uuid

/-- `unameit_delete`, with as much fuel as there are items. -/
def unameitDelete (S : Schema) (σ : State) (uuid : DbObject) : Except Stop State :=
  udbDelete S (σ.items.objects.length + 1) σ uuid

/-! ## Attribute values -/

def scanPointer (S : Schema) (I : Items) (uuid : DbObject) (cname aname : CString)
    (input : DbObject) : Except Stop Unit :=
  if ¬ I.Alive input then .error (.enxRefItem uuid aname input)
  else if S.isa cname aname (I.cls input) then .ok ()
  else .error (.edomain uuid aname input)

def scanElements (S : Schema) (I : Items) (uuid : DbObject) (cname aname : CString) :
    List DbObject → Except Stop Unit
  | [] => .ok ()
  | o :: rest =>
    match scanPointer S I uuid cname aname o with
    | .error e => .error e
    | .ok () => scanElements S I uuid cname aname rest

def scanValue (S : Schema) (I : Items) (uuid : DbObject) (cname aname : CString)
    (input : List DbObject) : Except Stop Unit :=
  if S.kind aname = .scalar ∧ 1 < input.length then .error (.enotRefUuid uuid aname input)
  else scanElements S I uuid cname aname input

/-- The attribute values of a call: `Udb_Set_Attribute` for each, collected in the table of
relations, where a later value of an attribute replaces an earlier one. -/
def setAttributes (S : Schema) (I : Items) (uuid : DbObject) (cname : CString) :
    List (CString × List DbObject) → List (CString × List DbObject) →
      Except Stop (List (CString × List DbObject))
  | table, [] => .ok table
  | table, (aname, input) :: rest =>
    if aname ∉ S.relattributes cname then .error (.enoattr uuid aname)
    else
      match scanValue S I uuid cname aname input with
      | .error e => .error e
      | .ok () =>
        setAttributes S I uuid cname
          ((aname, input) :: table.filter fun entry => entry.1 ≠ aname) rest

def Items.store (I : Items) (uuid : DbObject) (table : List (CString × List DbObject)) : Items :=
  { I with
    value :=
      update I.value uuid fun aname =>
        (table.lookup aname).getD (I.value uuid aname) }

/-! ## System calls -/

def udbCreate (S : Schema) (σ : State) (cname : CString) (uuid : DbObject)
    (args : List (CString × List DbObject)) : Except Stop State :=
  if S.readonly cname then .error (.ereadonly uuid cname)
  else
    match setAttributes S σ.items uuid cname [] args with
    | .error e => .error e
    | .ok table =>
      if uuid ∈ σ.items.objects then .error (.eusedUuid uuid)
      else
        let I : Items :=
          { objects := uuid :: σ.items.objects
            cls := update σ.items.cls uuid cname
            deleted := update σ.items.deleted uuid false
            value := update σ.items.value uuid fun _ => [] }
        udbUpdateRelations S uuid true false { σ with items := I.store uuid table } table

def udbUpdate (S : Schema) (σ : State) (uuid : DbObject)
    (args : List (CString × List DbObject)) : Except Stop State :=
  let cname := σ.items.cls uuid
  if ¬ σ.items.Alive uuid then .error (.enxitem uuid)
  else if S.readonly cname then .error (.ereadonly uuid cname)
  else
    match setAttributes S σ.items uuid cname [] args with
    | .error e => .error e
    | .ok table =>
      udbUpdateRelations S uuid false false { σ with items := σ.items.store uuid table } table

/-- `Udb_Undelete`: only the given attributes are set, and only for them relations are built. -/
def udbUndelete (S : Schema) (σ : State) (uuid : DbObject)
    (args : List (CString × List DbObject)) : Except Stop State :=
  let cname := σ.items.cls uuid
  if uuid ∉ σ.items.objects then .error (.enxitem uuid)
  else if σ.items.Alive uuid then .error (.eusedUuid uuid)
  else if S.readonly cname then .error (.ereadonly uuid cname)
  else
    match setAttributes S σ.items uuid cname [] args with
    | .error e => .error e
    | .ok table =>
      let I := { σ.items with deleted := update σ.items.deleted uuid false }
      udbUpdateRelations S uuid true false { σ with items := I.store uuid table } table

/-- `unameit_undelete`: all attributes are passed on.  Computed ones have the values that the
create triggers set; any other has the value given by the caller, or else the value that the item
had when it was deleted. -/
def unameitUndelete (S : Schema) (σ : State) (uuid : DbObject)
    (args : List (CString × List DbObject)) (triggers : CString → List DbObject) :
    Except Stop State :=
  let cname := σ.items.cls uuid
  if uuid ∉ σ.items.objects then .error (.enxitem uuid)
  else if σ.items.deleted uuid = false then .error (.enotDeleted uuid)
  else
    udbUndelete S σ uuid <|
      (S.relattributes cname).map fun aname =>
        (aname,
          if S.computed cname aname then triggers aname
          else (args.lookup aname).getD (σ.items.value uuid aname))

/-! ## Checks at commit -/

/-- One entry of `EREFINTEGRITY`: the pointing item, the attribute and the item pointed at. -/
abbrev Reference := Option DbObject × CString × DbObject

/-- The inner loop of `Udb_Do_Reference_Checks`.  The first argument is the number of entries that
still go into the message. -/
def blockReferences (R : Relations) (object : DbObject) : ℕ → Option RelId → List Reference
  | 0, _ => []
  | _ + 1, none => []
  | room + 1, some r => (R.lhs r, r.1, object) :: blockReferences R object room (R.links.next r)

def danglingReferences (R : Relations) : ℕ → List DbObject → List Reference
  | _, [] => []
  | room, object :: rest =>
    let found := blockReferences R object room (R.links.head object .block)
    found ++ danglingReferences R (room - found.length) rest

/-- `Udb_Do_Reference_Checks`; the error is `EREFINTEGRITY` with at most ten references. -/
def udbDoReferenceChecks (σ : State) : Except (List Reference) Unit :=
  match danglingReferences σ.relations 10 σ.refTable with
  | [] => .ok ()
  | found => .error found

/-- What a search for loops returns: the offending item with the loop recorded so far, or the table
of verified items. -/
inductive Leaf
  | loop (leaf : DbObject) (uuids : List DbObject)
  | verified (table : List DbObject)
  | endless
  deriving DecidableEq, Repr

def loopElements (search : List DbObject → List DbObject → DbObject → Leaf)
    (path : List DbObject) : List DbObject → List DbObject → Leaf
  | verified, [] => .verified verified
  | verified, next :: rest =>
    if next ∈ path then .loop next [next]
    else
      match search verified (next :: path) next with
      | .loop leaf uuids => .loop leaf (if leaf ∈ path then uuids ++ [next] else uuids)
      | .verified table => loopElements search path table rest
      | .endless => .endless

/-- `Collection_Loop_Leaf`.  `Scalar_Loop_Leaf` is the same search with at most one item to go
on to.  The fuel bounds the length of the path. -/
def loopLeaf (targets : DbObject → List DbObject) :
    ℕ → List DbObject → List DbObject → DbObject → Leaf
  | 0, _, _, _ => .endless
  | fuel + 1, verified, path, object =>
    if object ∈ verified then .verified verified
    else
      match loopElements (loopLeaf targets fuel) path verified (targets object) with
      | .loop leaf uuids => .loop leaf uuids
      | .verified table => .verified (object :: table)
      | .endless => .endless

/-- The loop of `Udb_Do_Loop_Checks` over the items of one attribute. -/
def loopChecksOf (σ : State) (aname : CString) : List DbObject → List DbObject → Leaf
  | verified, [] => .verified verified
  | verified, object :: rest =>
    match loopLeaf (fun o => σ.items.value o aname) (σ.items.objects.length + 1) verified
      [object] object with
    | .loop leaf uuids => .loop leaf uuids
    | .verified table => loopChecksOf σ aname (object :: table) rest
    | .endless => .endless

def State.loopStarts (σ : State) (aname : CString) : List DbObject :=
  (σ.loopTable.filter fun entry => entry.1 = aname).map Prod.snd

/-- Why `Udb_Do_Loop_Checks` fails: `ELOOP` with the attribute and the loop. -/
inductive LoopError
  | eloop (aname : CString) (uuids : List DbObject)
  | endless
  deriving DecidableEq, Repr

def loopChecks (σ : State) : List CString → Except LoopError Unit
  | [] => .ok ()
  | aname :: rest =>
    match loopChecksOf σ aname [] (σ.loopStarts aname) with
    | .loop _ uuids => .error (.eloop aname uuids)
    | .verified _ => loopChecks σ rest
    | .endless => .error .endless

def udbDoLoopChecks (σ : State) : Except LoopError Unit :=
  loopChecks σ (σ.loopTable.map Prod.fst).dedup

/-- `Udb_Reset_Reference_Checks` and `Udb_Reset_Loop_Checks`, when the transaction ends. -/
def State.resetChecks (σ : State) : State :=
  { σ with
    refTable := []
    loopTable := [] }

/-! ## Runs -/

inductive Op
  | create (cname : CString) (uuid : DbObject) (args : List (CString × List DbObject))
  | update (uuid : DbObject) (args : List (CString × List DbObject))
  | delete (uuid : DbObject)
  | undelete (uuid : DbObject) (args : List (CString × List DbObject))
      (triggers : CString → List DbObject)

def step (S : Schema) (σ : State) : Op → Except Stop State
  | .create cname uuid args => udbCreate S σ cname uuid args
  | .update uuid args => udbUpdate S σ uuid args
  | .delete uuid => unameitDelete S σ uuid
  | .undelete uuid args triggers => unameitUndelete S σ uuid args triggers

/-- A sequence of system calls.  A call that fails is undone. -/
def run (S : Schema) : State → List Op → State
  | σ, [] => σ
  | σ, op :: rest =>
    match step S σ op with
    | .ok σ => run S σ rest
    | .error _ => run S σ rest

end Refint
end Unameit
