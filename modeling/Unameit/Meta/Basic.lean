import Mathlib.Tactic.Common
import Unameit.Inet.Basic

/-!
# Meta.Basic — changing the schema

When a transaction that has changed classes or attributes is committed, `unameit_change_schema`
compares the two schemas and changes the tables of the database.  Every class has its own column for
every attribute that it defines or inherits, and a column is dropped when the class, the attribute,
the inheritance or the domain of a pointer is no longer what it was (`unameitDeconflictClass`).

Before anything is changed the new schema is validated.  Three of the checks are there to protect
data; the others are represented by what they ask (`OtherCheck`).
-/

namespace Unameit
namespace Meta

/-! ## Schemas -/

abbrev Uuid := DbObject

structure ClassItem where
  name : CString
  /-- Whether the item is of class `unameit_data_class`. -/
  isData : Bool
  readonly : Bool
  /-- `unameit_class_supers`. -/
  supers : List Uuid
  deriving DecidableEq, Repr

/-- A defining attribute has a name, and an inherited one names the attribute it refines. -/
inductive Resolution
  | defining (name : CString)
  | inherited (whence : Uuid)
  deriving DecidableEq, Repr

/-- What is used of the metadata of an attribute.  The domain is there for pointers only; it may be
the empty string for inherited pointers. -/
structure AttributeItem where
  cls : Uuid
  resolution : Resolution
  pointerDomain : Option (Option Uuid)
  deriving DecidableEq, Repr

inductive Multiplicity
  | scalar
  | set
  | sequence
  deriving DecidableEq, Repr

structure Schema where
  /-- The indices of `UNAMEIT_SUPS`. -/
  classes : List Uuid
  classItem : Uuid → ClassItem
  /-- `UNAMEIT_ATTRIBUTE_ITEMS`. -/
  attributeItems : List Uuid
  attributeItem : Uuid → Option AttributeItem
  /-- `UNAMEIT_MULTIPLICITY`, indexed by the name of an attribute. -/
  multiplicity : CString → Multiplicity
  /-- `UNAMEIT_ISA`, indexed by a class and a subclass of it. -/
  isa : Uuid → Uuid → Bool
  /-- `UNAMEIT_ATTRIBUTES`: for every attribute of a class the most specific metadata. -/
  attributes : Uuid → List Uuid
  /-- `UNAMEIT_DIRECT_SUPERS`. -/
  directSupers : Uuid → List Uuid
  /-- `UNAMEIT_POINTER_DOMAIN`, indexed by a class and a defining attribute. -/
  pointerDomain : Uuid → Uuid → Option (Option Uuid)
  /-- The data classes in the order of `unameit_sort_top_down`. -/
  dataClasses : List Uuid
  unameitItem : Uuid
  dataItem : Uuid

def Schema.defining (s : Schema) (attr : Uuid) : Uuid :=
  match s.attributeItem attr with
  | some { resolution := .inherited whence, .. } => whence
  | _ => attr

def Schema.attributeName (s : Schema) (defining : Uuid) : CString :=
  match s.attributeItem defining with
  | some { resolution := .defining name, .. } => name
  | _ => []

def Schema.attributeClass (s : Schema) (defining : Uuid) : Option Uuid :=
  (s.attributeItem defining).map AttributeItem.cls

def Schema.isDefining (s : Schema) (attr : Uuid) : Bool :=
  match s.attributeItem attr with
  | some { resolution := .defining _, .. } => true
  | _ => false

/-- The outcome of `intersect3`: what is only in the first list, in both, and only in the second. -/
def intersect3 (a b : List Uuid) : List Uuid × List Uuid × List Uuid :=
  (a.filter (· ∉ b), a.filter (· ∈ b), b.filter (· ∉ a))

/-! ## Instances -/

/-- A direct instance of a class.  A value that is there is not NULL; a set or a sequence is given as
a list, so that the empty one is the empty string. -/
structure Instance where
  cls : Uuid
  deleted : Bool
  value : CString → Option CString

abbrev Db := List Instance

structure Query where
  all : Bool
  deleted : Bool
  deriving DecidableEq, Repr

/-- The constraint `aname !=`: `IS NOT NULL` for a scalar attribute, `<> {}` for a set or a sequence,
which is not true of NULL either. -/
def Instance.differs (i : Instance) (old : Schema) (aname : CString) : Bool :=
  match old.multiplicity aname with
  | .scalar => (i.value aname).isSome
  | _ => (i.value aname).any (· ≠ [])

/-- The instance is found by the query: it is of the class (with `-all`, also of a subclass), it is
not deleted (unless with `-deleted`), and it meets the constraints. -/
def Query.finds (old : Schema) (q : Query) (cls : Uuid) (anames : List CString) (i : Instance) :
    Bool :=
  (if q.all then old.isa cls i.cls else i.cls = cls) && (q.deleted || !i.deleted) &&
    anames.all (i.differs old)

def unameitCheckNoInstances (old : Schema) (db : Db) (cls : Uuid) (q : Query)
    (anames : List CString) : Bool :=
  db.all fun i => !q.finds old cls anames i

/-! ## Validation -/

inductive SchemaError
  | classHasInstances (cls : Uuid)
  | unexpectedDeletedClass (cname : CString)
  | attrHasInstances (cls attr : Uuid)
  | attrDomainLoseData (cls attr : Uuid)
  | domainConflict (cls attr : Uuid) (supers : List Uuid)
  | badMetadata
  | other (code : CString)
  deriving DecidableEq, Repr

def unameitCheckClasses (old new : Schema) (db : Db) : Option SchemaError :=
  let (deleted, common, _) := intersect3 old.classes new.classes
  deleted.findSome? (fun cls =>
      if (old.classItem cls).isData then
        if unameitCheckNoInstances old db cls { all := false, deleted := true } [] then none
        else some (.classHasInstances cls)
      else some (.unexpectedDeletedClass (old.classItem cls).name)) <|>
    common.findSome? fun cls =>
      if (old.classItem cls).readonly = (new.classItem cls).readonly then none
      else if unameitCheckNoInstances old db cls { all := false, deleted := false } [] then none
      else some (.classHasInstances cls)

def checkDeletedAttribute (old new : Schema) (db : Db) (cls attr : Uuid) :
    Option SchemaError :=
  let d := old.defining attr
  let aname := old.attributeName d
  match new.attributeItem d with
  | none =>
    -- the attribute is gone: its values are looked for from the defining class downwards
    if old.attributeClass d ≠ some cls then none
    else if unameitCheckNoInstances old db cls { all := true, deleted := true } [aname] then none
    else some (.attrHasInstances cls attr)
  | some item =>
    if new.isa item.cls cls then none
    else if unameitCheckNoInstances old db cls { all := false, deleted := true } [aname] then none
    else some (.attrHasInstances cls attr)

def unameitCheckDeletedAttributes (old new : Schema) (db : Db) : Option SchemaError :=
  (intersect3 old.classes new.classes).2.1.findSome? fun cls =>
    if (old.classItem cls).isData then
      (old.attributes cls).findSome? (checkDeletedAttribute old new db cls)
    else none

/-- What the other checks do: each one fails without looking at the data, or unless a class has no
undeleted instances (with values of some attributes). -/
inductive OtherCheck
  | fails (code : CString)
  | noInstances (cls : Uuid) (all : Bool) (anames : List CString) (code : CString)
  deriving DecidableEq, Repr

def OtherCheck.run (old : Schema) (db : Db) : OtherCheck → Option SchemaError
  | .fails code => some (.other code)
  | .noInstances cls all anames code =>
    if unameitCheckNoInstances old db cls { all := all, deleted := false } anames then none
    else some (.other code)

/-- The arrays `computed_domain` and `new_domain`, indexed by a class and a defining attribute. -/
structure Domains where
  computed : List ((Uuid × Uuid) × Option Uuid)
  new : List ((Uuid × Uuid) × Option Uuid)
  deriving DecidableEq, Repr

/-- `unameit_check_domain_change`.  Whether a column has values is asked by `hasData`. -/
def unameitCheckDomainChange (old : Schema) (hasData : Uuid → CString → Bool)
    (cls attr : Uuid) (domain : Option Uuid) (domains : Domains) :
    Except SchemaError Domains :=
  let domains := { domains with computed := ((cls, attr), domain) :: domains.computed }
  let changed := { domains with new := ((cls, attr), domain) :: domains.new }
  match old.pointerDomain cls attr with
  | none => .ok changed
  | some oldDomain =>
    if domain = oldDomain then .ok domains
    else if hasData cls (old.attributeName attr) then
      .error (.attrDomainLoseData cls attr)
    else .ok changed

/-- `unameit_compute_attribute_domain`: the domain that is a subclass of the domains of all given
superclasses. -/
def unameitComputeAttributeDomain (new : Schema) (cls : Uuid) (supers : List Uuid)
    (attr : Uuid) (domains : Domains) : Except SchemaError (Option Uuid) :=
  match supers.mapM fun super => domains.computed.lookup (super, attr) with
  | none => .error .badMetadata
  | some [] => .error .badMetadata
  | some candidates =>
    let left := candidates.dedup.filter fun c => candidates.all fun d =>
      c = d || (match d, c with
        | some d, some c => new.isa d c
        | _, _ => false)
    match left with
    | [] => .error (.domainConflict cls attr supers)
    | domain :: _ => .ok domain

def unameitCheckAttributeDomain (old new : Schema) (hasData : Uuid → CString → Bool)
    (cls attr : Uuid) (item : AttributeItem) (domain : Option Uuid) (domains : Domains) :
    Except SchemaError Domains :=
  let d := new.defining attr
  match new.attributeClass d with
  | none => .error .badMetadata
  | some definingClass =>
    if cls = definingClass then
      unameitCheckDomainChange old hasData cls attr domain domains
    else
      let supers := (new.directSupers cls).filter (new.isa definingClass ·)
      match (if cls = item.cls then domain else none) with
      | some own =>
        -- the domain is given by metadata of the class, and must refine those of the supers
        match supers.find? (fun super => match domains.computed.lookup (super, d) with
            | some (some superDomain) => !new.isa superDomain own
            | _ => true) with
        | some super => .error (.domainConflict cls attr [super])
        | none => unameitCheckDomainChange old hasData cls d (some own) domains
      | none => do
        let domain ← unameitComputeAttributeDomain new cls supers d domains
        unameitCheckDomainChange old hasData cls d domain domains

/-- One attribute of a class in `unameit_check_pointer_domains`; only pointers have a domain. -/
def checkPointerDomain (old new : Schema) (hasData : Uuid → CString → Bool) (domains : Domains)
    (column : Uuid × Uuid) : Except SchemaError Domains :=
  match new.attributeItem column.2 with
  | some item =>
    match item.pointerDomain with
    | some domain =>
      unameitCheckAttributeDomain old new hasData column.1 column.2 item domain domains
    | none => .ok domains
  | none => .ok domains

def Schema.columns (s : Schema) : List (Uuid × Uuid) :=
  s.dataClasses.flatMap fun cls => (s.attributes cls).map fun attr => (cls, attr)

def unameitCheckPointerDomains (old new : Schema) (hasData : Uuid → CString → Bool) :
    Except SchemaError Domains :=
  new.columns.foldlM (checkPointerDomain old new hasData) { computed := [], new := [] }

/-- `unameit_check_superclasses`: whether the superclasses of some class have changed. -/
def unameitCheckSuperclasses (old new : Schema) : Bool :=
  (intersect3 old.classes new.classes).2.1.any fun cls =>
    let (deleted, _, added) := intersect3 (old.classItem cls).supers (new.classItem cls).supers
    (deleted ++ added).any fun super => super ≠ old.unameitItem ∧ super ≠ old.dataItem

def hasData (old : Schema) (db : Db) (cls : Uuid) (aname : CString) : Bool :=
  !unameitCheckNoInstances old db cls { all := false, deleted := true } [aname]

def schemaChanged (old new : Schema) (domains : Domains) : Bool :=
  let (deletedClasses, _, newClasses) := intersect3 old.classes new.classes
  let (deletedAttributes, _, newAttributes) := intersect3 old.attributeItems new.attributeItems
  !domains.new.isEmpty || !(deletedClasses ++ newClasses).isEmpty ||
    unameitCheckSuperclasses old new || deletedAttributes.any old.isDefining ||
    newAttributes.any new.isDefining

/-- `unameit_do_global_validation`.  The domains that have changed are returned as well. -/
def unameitDoGlobalValidation (old new : Schema) (others : List OtherCheck) (db : Db) :
    Except SchemaError (Bool × Domains) :=
  match unameitCheckClasses old new db <|> unameitCheckDeletedAttributes old new db <|>
      others.findSome? (OtherCheck.run old db) with
  | some e => .error e
  | none => do
    let domains ← unameitCheckPointerDomains old new (hasData old db)
    return (schemaChanged old new domains, domains)

/-! ## Changing the tables -/

inductive MetaCommand
  | editClass (cname : CString)
  | dropAttribute (aname : CString)
  | dropClass (cname : CString)
  | renameAttribute (aname newName : CString)
  | finishClass
  deriving DecidableEq, Repr

/-- Whether the column of a class for a defining attribute is dropped. -/
def drops (old new : Schema) (domains : Domains) (cls d : Uuid) : Bool :=
  let classStable := new.isa cls cls
  let attributeStable := (new.attributeItem d).isSome
  let inheritanceStable := (old.attributeClass d).any fun definingClass => new.isa definingClass cls
  let domainChange := (domains.new.lookup (cls, d)).isSome
  !classStable || !attributeStable || !inheritanceStable || domainChange

def deconflictAttribute (old new : Schema) (domains : Domains) (cls attr : Uuid) :
    List MetaCommand :=
  let d := old.defining attr
  let aname := old.attributeName d
  if old.attributeClass d = some old.unameitItem then []
  else if drops old new domains cls d then
    let isPointer := ((old.attributeItem attr).bind AttributeItem.pointerDomain).isSome
    .dropAttribute aname ::
      if old.attributeClass d = some cls ∧ isPointer then [.dropClass ("relation/".toList ++ aname)]
      else []
  else if old.attributeClass d = some cls then []
  else [.renameAttribute aname ((old.classItem cls).name ++ ".".toList ++ aname)]

def unameitDeconflictClass (old new : Schema) (domains : Domains) (cls : Uuid) :
    List MetaCommand :=
  .editClass (old.classItem cls).name ::
    ((old.attributes cls).flatMap (deconflictAttribute old new domains cls) ++ [.finishClass])

/-- The part of `unameit_change_schema` that drops columns: validation, and if there is something to
change, `unameit_deconflict_schema`.  The commands are returned by class. -/
def unameitChangeSchema (old new : Schema) (others : List OtherCheck) (db : Db) :
    Except SchemaError (List (Uuid × List MetaCommand)) := do
  let (changed, domains) ← unameitDoGlobalValidation old new others db
  if changed then
    return old.dataClasses.map fun cls => (cls, unameitDeconflictClass old new domains cls)
  else return []

/-! ## What is assumed of schemas -/

def Schema.Reflexive (s : Schema) : Prop :=
  ∀ cls, s.isa cls cls = true ↔ cls ∈ s.classes

/-- The metadata of a class for an attribute goes back to a defining attribute, of the class or of
a superclass, which is an attribute of the class that it belongs to. -/
structure Schema.Traces (s : Schema) (cls attr definingClass : Uuid) : Prop where
  defining : s.isDefining (s.defining attr) = true
  belongs : s.attributeClass (s.defining attr) = some definingClass
  isa : s.isa definingClass cls = true
  mem : definingClass ∈ s.classes
  isData : (s.classItem definingClass).isData = true
  own : s.defining attr ∈ s.attributes definingClass

/-- The schema that the database has: it has passed the checks of an earlier change. -/
structure Schema.Sound (s : Schema) : Prop where
  reflexive : s.Reflexive
  dataClasses : ∀ cls, cls ∈ s.dataClasses ↔ cls ∈ s.classes ∧ (s.classItem cls).isData = true
  traces : ∀ cls ∈ s.dataClasses, ∀ attr ∈ s.attributes cls,
    ∃ definingClass, s.Traces cls attr definingClass
  names : ∀ d d', s.isDefining d = true → s.isDefining d' = true →
    s.attributeName d = s.attributeName d' → d = d'
  pointers : ∀ cls d, (s.pointerDomain cls d).isSome = true → s.isDefining d = true

end Meta
end Unameit
