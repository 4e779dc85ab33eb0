import Mathlib.Logic.Function.Basic
import Unameit.Inet.Basic
import Unameit.Lib.Parents

/-!
# Auth.Basic — roles, authorization records and the caches of the server

An authorization record gives a principal a role at a region.  A role lists classes for each kind
of operation and covers the roles below it in the role tree; a record reaches down from its region
through the region tree, to the border of the cell.

The server answers from tables.  `unameitReloadRoles` flattens the role hierarchy, and
`unameitPrincipal` loads the records of a principal; the tables of up to a hundred principals are
kept.  Triggers raise flags (`Stale`), and the next request drops the tables that the flags name.
-/

namespace Unameit
namespace Auth

open Function (update)

/-! ## Data -/

inductive Op
  | create
  | update
  | delete
  deriving DecidableEq, Repr

/-- A role, with the classes of its attributes `unameit_role_<op>_classes`. -/
structure Role where
  uuid : DbObject
  roleName : CString
  owner : Option DbObject
  classes : Op → List DbObject

structure Record where
  principal : DbObject
  role : DbObject
  owner : DbObject
  deriving DecidableEq, Repr

/-- The regions.  Owners are finitely many steps away from the top. -/
structure Forest where
  owner : DbObject → Option DbObject
  isCell : DbObject → Bool
  root : DbObject
  height : DbObject → ℕ
  owner_lt : ∀ a b, owner a = some b → height b < height a

/-- What the authorization routines read from the database.  Records are listed with their
uuids. -/
structure Db where
  regions : Forest
  roles : List Role
  records : List (DbObject × Record)

/-- `udb_qbe authorization [list principal = $uuid]`. -/
def Db.recordsOf (db : Db) (p : DbObject) : List Record :=
  (db.records.map Prod.snd).filter (·.principal = p)

/-- The way up that stays within the cell: there is no step from a cell to its owner. -/
def Forest.inCell (F : Forest) (o : DbObject) : Option DbObject :=
  if F.isCell o then none else F.owner o

/-! ## The role hierarchy -/

/-- The arrays `al` (ancestors), `dl` (descendants) and `isdesc` of `unameit_reload_roles`. -/
structure Hierarchy where
  al : DbObject → List DbObject
  dl : DbObject → List DbObject
  isdesc : DbObject → DbObject → Bool

def Hierarchy.add (h : Hierarchy) (r s : DbObject) : Hierarchy :=
  if h.isdesc r s then h
  else
    { al := update h.al r (h.al r ++ [s])
      dl := update h.dl s (h.dl s ++ [r])
      isdesc := update h.isdesc r (update (h.isdesc r) s true) }

/-- One turn of the loop over the owner of `r1` and the ancestors of the owner. -/
def Hierarchy.addSuper (r1 : DbObject) (h : Hierarchy) (r2 : DbObject) : Hierarchy :=
  if h.isdesc r1 r2 then h
  else
    let h := h.add r1 r2
    (h.dl r1).foldl (fun h r3 => h.add r3 r2) h

/-- One turn of the loop over all roles.  A role without an owner has no ancestors. -/
def Hierarchy.addRole (h : Hierarchy) (r1 : Role) : Hierarchy :=
  match r1.owner with
  | none => h
  | some owner => (owner :: h.al owner).foldl (Hierarchy.addSuper r1.uuid) h

def Hierarchy.initial (rlist : List Role) : Hierarchy where
  al _ := []
  dl _ := []
  isdesc r s := r = s ∧ r ∈ rlist.map Role.uuid

def hierarchy (rlist : List Role) : Hierarchy :=
  rlist.foldl Hierarchy.addRole (Hierarchy.initial rlist)

/-- The array `UNAMEIT_<OP>_CLASSES` under construction, with the pairs of `authorize`. -/
structure ClassLists where
  array : DbObject → List CString
  authorize : List (DbObject × DbObject)

/-- Propagates control over a class to a role and its ancestors; the loop ends at the first one
that already has it. -/
def ClassLists.propagate (cls : DbObject) (cname : CString) :
    List DbObject → ClassLists → ClassLists
  | [], lists => lists
  | super :: supers, lists =>
    if (super, cls) ∈ lists.authorize then lists
    else
      propagate cls cname supers
        { array := update lists.array super (lists.array super ++ [cname])
          authorize := (super, cls) :: lists.authorize }

section Names

-- `UNAMEIT_CLASS_NAME`, which has no entry for a class that is not committed yet
variable (cnames : DbObject → Option CString)

def ClassLists.addClass (al : DbObject → List DbObject) (role : DbObject) (lists : ClassLists)
    (cls : DbObject) : ClassLists :=
  match cnames cls with
  | none => lists
  | some cname => lists.propagate cls cname (role :: al role)

def classLists (al : DbObject → List DbObject) (rlist : List Role) (op : Op) : ClassLists :=
  rlist.foldl
    (fun lists role => (role.classes op).foldl (ClassLists.addClass cnames al role.uuid) lists)
    { array := fun _ => [], authorize := [] }

/-- The entries for a role in `UNAMEIT_SUBROLES` and in the three arrays of classes, which have
the same indices. -/
structure RoleEntry where
  subroles : List DbObject
  classes : Op → List CString

structure RoleTables where
  roleUuid : CString → Option DbObject
  entry : DbObject → Option RoleEntry

def unameitReloadRoles (rlist : List Role) : RoleTables :=
  let h := hierarchy rlist
  { roleUuid := rlist.foldl (fun t r => update t r.roleName (some r.uuid)) fun _ => none
    entry := fun r =>
      if r ∈ rlist.map Role.uuid then
        some
          { subroles := r :: h.dl r
            classes := fun op => (classLists cnames h.al rlist op).array r }
      else none }

/-! ## The caches -/

/-- `UNAMEIT_PAUTH_<p>`: answers by owner, class and operation.  An array exists in Tcl once it has
an entry, that is when the list is not empty. -/
abbrev Pauth := List ((DbObject × CString × Op) × Bool)

abbrev Pgrant := List ((DbObject × DbObject) × Bool)

/-- `UNAMEIT_STALE_AUTH`, with its two special indices. -/
structure Stale where
  regions : Bool
  roles : Bool
  principals : List DbObject
  deriving DecidableEq, Repr

def Stale.none : Stale where
  regions := false
  roles := false
  principals := []

structure Server where
  tables : RoleTables
  pcache : List DbObject
  pauth : DbObject → Pauth
  pgrant : DbObject → Pgrant
  stale : Stale

/-- After the schema is loaded the roles are marked as stale, and nothing is cached. -/
def Server.start : Server where
  tables := { roleUuid := fun _ => Option.none, entry := fun _ => Option.none }
  pcache := []
  pauth _ := []
  pgrant _ := []
  stale := { Stale.none with roles := true }

def unameitFlushAuthCache (db : Db) (σ : Server) : Server :=
  if σ.stale.regions || σ.stale.roles then
    { tables := if σ.stale.roles then unameitReloadRoles cnames db.roles else σ.tables
      pcache := []
      pauth := fun p => if p ∈ σ.pcache then [] else σ.pauth p
      pgrant := fun p => if p ∈ σ.pcache then [] else σ.pgrant p
      stale := Stale.none }
  else
    { tables := σ.tables
      pcache := σ.stale.principals.foldl List.erase σ.pcache
      pauth := fun p => if p ∈ σ.stale.principals then [] else σ.pauth p
      pgrant := fun p => if p ∈ σ.stale.principals then [] else σ.pgrant p
      stale := Stale.none }

/-- The two arrays of a principal while its records are loaded.  Loading stops with an error at a
role without an entry. -/
structure Load where
  pauth : Pauth
  pgrant : Pgrant
  isradmin : Bool
  failed : Bool

/-- `foreach op {create update delete} {foreach class ..}`: an owner and a role's classes. -/
def Load.addClasses (load : Load) (owner : DbObject) (entry : RoleEntry) : Load :=
  [Op.create, .update, .delete].foldl
    (fun load op => (entry.classes op).foldl
      (fun load cls => { load with pauth := ((owner, cls, op), true) :: load.pauth }) load)
    load

def Load.addRecord (tables : RoleTables) (radmin : DbObject) (load : Load) (item : Record) :
    Load :=
  if load.failed then load
  else
    match tables.entry item.role with
    | Option.none => { load with failed := true }
    | some entry =>
      let load : Load := entry.subroles.foldl
        (fun load subrole =>
          { load with
            pgrant := ((item.owner, subrole), true) :: load.pgrant
            isradmin := load.isradmin || subrole = radmin })
        load
      load.addClasses item.owner entry

def regionadmin : CString := "regionadmin".toList

def rootadmin : CString := "rootadmin".toList

/-- A region administrator may also handle the global objects of the root cell. -/
def Load.addRoot (tables : RoleTables) (root : DbObject) (load : Load) : Load :=
  if load.failed || !load.isradmin then load
  else
    match (tables.roleUuid rootadmin).bind tables.entry with
    | Option.none => { load with failed := true }
    | some entry => load.addClasses root entry

def loadPrincipal (db : Db) (tables : RoleTables) (p : DbObject) : Load :=
  match tables.roleUuid regionadmin with
  | Option.none => { pauth := [], pgrant := [], isradmin := false, failed := true }
  | some radmin =>
    ((db.recordsOf p).foldl (Load.addRecord tables radmin)
      { pauth := [], pgrant := [], isradmin := false, failed := false }).addRoot
        tables db.regions.root

/-- The principal goes to the front of the cache, and the hundredth one leaves it. -/
def enterCache (σ : Server) (p : DbObject) : Server :=
  match σ.pcache[99]? with
  | Option.none => { σ with pcache := p :: σ.pcache }
  | some lru =>
    { σ with
      pcache := p :: σ.pcache.eraseIdx 99
      pauth := update σ.pauth lru []
      pgrant := update σ.pgrant lru [] }

def Server.setTables (σ : Server) (p : DbObject) (load : Load) : Server :=
  { σ with
    pauth := update σ.pauth p load.pauth
    pgrant := update σ.pgrant p load.pgrant }

/-- The part of `unameit_principal` after the stale tables are gone: a principal that is not
cached is loaded.  The flag tells whether this succeeds. -/
def usePrincipal (db : Db) (σ : Server) (p : DbObject) : Server × Bool :=
  if p ∈ σ.pcache then
    ({ σ with pcache := p :: σ.pcache.erase p }, true)
  else
    if (loadPrincipal db σ.tables p).failed then
      (σ.setTables p (loadPrincipal db σ.tables p), false)
    else (enterCache (σ.setTables p (loadPrincipal db σ.tables p)) p, true)

/-- `unameit_principal`.  The superuser is not subject to authorization. -/
def unameitPrincipal (db : Db) (σ : Server) : Option DbObject → Server × Bool
  | Option.none => (σ, true)
  | some p =>
    usePrincipal db (if σ.stale = Stale.none then σ else unameitFlushAuthCache cnames db σ) p

end Names

/-! ## Questions -/

/-- The walk up the tree from an owner: it ends at the first entry of a table, at an object where
it has to stop, or above the top.  The objects on the way that are to be remembered are returned
with the answer. -/
def walkUp (F : Forest) (entry : DbObject → Option Bool) (saves stops : DbObject → Bool) :
    ℕ → Option DbObject → List DbObject × Bool
  | _, none => ([], false)
  | 0, some _ => ([], false)
  | n + 1, some owner =>
    match entry owner with
    | some allow => ([], allow)
    | none =>
      let saved := if saves owner then [owner] else []
      if stops owner then (saved, false)
      else
        let (olist, allow) := walkUp F entry saves stops n (F.owner owner)
        (saved ++ olist, allow)

def Forest.walk (F : Forest) (entry : DbObject → Option Bool) (saves stops : DbObject → Bool)
    (owner : Option DbObject) : List DbObject × Bool :=
  walkUp F entry saves stops ((owner.map F.height).getD 0 + 1) owner

/-- `unameit_test_cando`.  It does not go up beyond the containing cell, and remembers the answer
for every object it has passed. -/
def unameitTestCando (F : Forest) (σ : Server) (p : DbObject) (cls : CString) (event : Op)
    (owner : Option DbObject) : Bool × Server :=
  let (olist, allow) :=
    F.walk (fun o => (σ.pauth p).lookup (o, cls, event)) (fun _ => true) F.isCell owner
  let table := olist.foldl (fun t o => ((o, cls, event), allow) :: t) (σ.pauth p)
  (allow, { σ with pauth := update σ.pauth p table })

/-- `[info exists isa(..)]` in `unameit_test_grant`.  The procedure links `cuuid` and `pgrant` to
global arrays, but not `isa`: the name stands for a local variable that is never set. -/
def isaExists (_ : DbObject) : Bool := false

/-- `unameit_test_grant`.  The tests for regions (to be remembered) and for cells (where the walk
should end) are both made with `isa`. -/
def unameitTestGrant (F : Forest) (σ : Server) (p role owner : DbObject) : Bool × Server :=
  let (olist, allow) :=
    F.walk (fun o => (σ.pgrant p).lookup (o, role)) isaExists isaExists (some owner)
  let table := olist.foldl (fun t o => ((o, role), allow) :: t) (σ.pgrant p)
  (allow, { σ with pgrant := update σ.pgrant p table })

structure Values where
  principal : Option DbObject
  role : Option DbObject
  owner : Option DbObject
  deriving DecidableEq, Repr

def Values.apply (new : Values) (item : Record) : Record where
  principal := new.principal.getD item.principal
  role := new.role.getD item.role
  owner := new.owner.getD item.owner

inductive Change
  | create (item : Record)
  | delete (item : Record)
  | update (item : Record) (new : Values)

/-- `unameit_check_grant_auth`: the principal must hold the role, and the new one as well when an
update changes role or owner. -/
def unameitCheckGrantAuth (F : Forest) (σ : Server) (p : DbObject) : Change → Bool × Server
  | .create item => unameitTestGrant F σ p item.role item.owner
  | .delete item => unameitTestGrant F σ p item.role item.owner
  | .update item new =>
    match unameitTestGrant F σ p item.role item.owner with
    | (false, σ) => (false, σ)
    | (true, σ) =>
      if new.role = none ∧ new.owner = none then (true, σ)
      else unameitTestGrant F σ p (new.role.getD item.role) (new.owner.getD item.owner)

/-! ## Requests -/

def unameitUncacheAuthRegion (σ : Server) : Server :=
  { σ with stale := { σ.stale with regions := true } }

def unameitUncacheAuthRole (σ : Server) : Server :=
  { σ with stale := { σ.stale with roles := true } }

def Server.flag (σ : Server) (ps : List DbObject) : Server :=
  { σ with stale := { σ.stale with principals := ps ++ σ.stale.principals } }

/-- The flag of a principal is raised only if one of its arrays exists. -/
def uncachePrincipal (σ : Server) (p : DbObject) : Server :=
  if σ.pauth p ≠ [] ∨ σ.pgrant p ≠ [] then σ.flag [p] else σ

/-- `unameit_uncache_authorization`, for the principals among the old and the new values.  The
trigger `update` has fetched all old values. -/
def unameitUncacheAuthorization (σ : Server) (old new : Option DbObject) : Server :=
  (old.toList ++ new.toList).foldl uncachePrincipal σ

def setRecord (uuid : DbObject) (new : Option Record) :
    List (DbObject × Record) → List (DbObject × Record)
  | [] => []
  | entry :: records =>
    if entry.1 = uuid then (new.map fun item => (uuid, item)).toList ++ records
    else entry :: setRecord uuid new records

/-- The server with its database: the state as of the last commit, and the state in the current
transaction.  There is a principal while a request of it is under way. -/
structure State where
  committed : Db
  working : Db
  server : Server
  principal : Option DbObject

/-- What happens in requests.  Changes of roles and of regions are not described further: a
transaction may do anything to them, and the triggers always raise the flag.  With a new cell there
may come a record for its creator. -/
inductive Event
  | request (p : Option DbObject)
  | cando (cls : CString) (op : Op) (owner : Option DbObject)
  | grant (role owner : DbObject)
  | createAuthorization (uuid : DbObject) (item : Record)
  | updateAuthorization (uuid : DbObject) (new : Values)
  | deleteAuthorization (uuid : DbObject)
  | changeRoles (rlist : List Role)
  | changeRegions (F : Forest) (admin : Option (DbObject × Record))
  | commit
  | rollback

/-- `unameit_begin`: what is left of an earlier transaction is rolled back, and the principal is
set.  A request is refused when this fails. -/
def unameitBegin (cnames : DbObject → Option CString) (σ : State) (p : Option DbObject) : State :=
  let result := unameitPrincipal cnames σ.committed σ.server p
  { committed := σ.committed
    working := σ.committed
    server := result.1
    principal := if result.2 then p else none }

def step (cnames : DbObject → Option CString) (σ : State) : Event → State
  | .request p => unameitBegin cnames σ p
  | .cando cls op owner =>
    match σ.principal with
    | none => σ
    | some p =>
      { σ with server := (unameitTestCando σ.working.regions σ.server p cls op owner).2 }
  | .grant role owner =>
    match σ.principal with
    | none => σ
    | some p => { σ with server := (unameitTestGrant σ.working.regions σ.server p role owner).2 }
  | .createAuthorization uuid item =>
    { σ with
      working := { σ.working with records := σ.working.records ++ [(uuid, item)] }
      server := unameitUncacheAuthorization σ.server none (some item.principal) }
  | .updateAuthorization uuid new =>
    match σ.working.records.lookup uuid with
    | none => σ
    | some item =>
      -- the trigger depends on the three attributes, so that it is not run without them
      if new.principal = none ∧ new.role = none ∧ new.owner = none then σ
      else
        { σ with
          working := { σ.working with
            records := setRecord uuid (some (new.apply item)) σ.working.records }
          server := unameitUncacheAuthorization σ.server (some item.principal)
            new.principal }
  | .deleteAuthorization uuid =>
    match σ.working.records.lookup uuid with
    | none => σ
    | some item =>
      { σ with
        working := { σ.working with records := setRecord uuid none σ.working.records }
        server := unameitUncacheAuthorization σ.server (some item.principal) none }
  | .changeRoles rlist =>
    { σ with
      working := { σ.working with roles := rlist }
      server := unameitUncacheAuthRole σ.server }
  | .changeRegions F admin =>
    { σ with
      working := { σ.working with
        regions := F
        records := σ.working.records ++ admin.toList }
      server := unameitUncacheAuthRegion σ.server }
  | .commit => { σ with committed := σ.working }
  | .rollback => { σ with working := σ.committed }

def run (cnames : DbObject → Option CString) (σ : State) (events : List Event) : State :=
  events.foldl (step cnames) σ

def State.start (db : Db) : State where
  committed := db
  working := db
  server := Server.start
  principal := none

/-- Every event of the run is as it should be, in the state in which it happens. -/
def Along (cnames : DbObject → Option CString) (ok : State → Event → Prop) :
    State → List Event → Prop
  | _, [] => True
  | σ, event :: events => ok σ event ∧ Along cnames ok (step cnames σ event) events

/-! ## The rules -/

def parentRole (rlist : List Role) (r : DbObject) : Option DbObject :=
  (rlist.find? (·.uuid = r)).bind Role.owner

def Covers (rlist : List Role) (role sub : DbObject) : Prop := UpTo (parentRole rlist) sub role

/-- A role, or a role below it, lists the class for the operation. -/
def Lists (cnames : DbObject → Option CString) (rlist : List Role) (role : DbObject)
    (cls : CString) (op : Op) : Prop :=
  ∃ sub ∈ rlist, Covers rlist role sub.uuid ∧ ∃ c ∈ sub.classes op, cnames c = some cls

/-- A record of `p` at the region gives the operation, or the region is the root cell, `p` is an
administrator of some region, and the administrators of the root cell have the operation. -/
def GivenAt (cnames : DbObject → Option CString) (db : Db) (p : DbObject) (cls : CString)
    (op : Op) (o : DbObject) : Prop :=
  (∃ item ∈ db.recordsOf p, item.owner = o ∧ Lists cnames db.roles item.role cls op) ∨
    (o = db.regions.root ∧
      (∃ item ∈ db.recordsOf p, ∃ radmin ∈ db.roles,
        radmin.roleName = regionadmin ∧ Covers db.roles item.role radmin.uuid) ∧
      ∃ r ∈ db.roles, r.roleName = rootadmin ∧ Lists cnames db.roles r.uuid cls op)

/-- Some region from the owner up to its cell gives the operation. -/
def CanDo (cnames : DbObject → Option CString) (db : Db) (p : DbObject) (cls : CString) (op : Op)
    (owner : Option DbObject) : Prop :=
  ∃ o ∈ owner, ∃ x, UpTo db.regions.inCell o x ∧ GivenAt cnames db p cls op x

def HeldAt (db : Db) (p role o : DbObject) : Prop :=
  ∃ item ∈ db.recordsOf p, item.owner = o ∧ Covers db.roles item.role role

/-- `p` holds the role at the owner or above it, within the cell. -/
def MayGrant (db : Db) (p role owner : DbObject) : Prop :=
  ∃ x, UpTo db.regions.inCell owner x ∧ HeldAt db p role x

/-- The roles as committed: uuids and names are unique, and the parents are roles of a tree. -/
structure SoundRoles (rlist : List Role) : Prop where
  uuids : (rlist.map Role.uuid).Nodup
  names : (rlist.map Role.roleName).Nodup
  owners : ∀ r ∈ rlist, ∀ o ∈ r.owner, o ∈ rlist.map Role.uuid
  tree : ∃ height : DbObject → ℕ, ∀ r ∈ rlist, ∀ o ∈ r.owner, height o < height r.uuid

/-- Transactions are committed only if the roles have passed the checks. -/
def Legal (σ : State) : Event → Prop
  | .commit => SoundRoles σ.working.roles
  | _ => True

end Auth
end Unameit
