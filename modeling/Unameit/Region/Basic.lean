import Mathlib.Logic.Function.Basic
import Unameit.Inet.Basic
import Unameit.Lib.Nearest

/-!
# Region.Basic — the tree of regions and cells

The owner of a region is the region with the longest name that the name of the region extends, or
the root cell.  Some regions are cells, and every other region is in the cell that is nearest above
it.  The tree is kept by `unameit_region_name_change`, which is run before and after every creation,
deletion and change of name.  It changes the tree one `udb_update` at a time, each of which is
refused if it takes a plain region into another cell (`checkOwner`).
-/

namespace Unameit
namespace Region

abbrev Uuid := DbObject

/-- Names are split at the dots.  The name `.` of the root cell is the list without labels. -/
abbrev Name := List CString

structure Values where
  name : Name
  /-- The name relative to the owner. -/
  relname : Name
  owner : Uuid
  deriving DecidableEq, Repr

/-- The regions of the database, cells included.  Deleted ones keep their values.  The root cell has
no owner, for which it stands itself. -/
structure Tree where
  root : Uuid
  items : List Uuid
  deleted : Uuid → Bool
  isCell : Uuid → Bool
  item : Uuid → Values

namespace Tree

def name (tree : Tree) (r : Uuid) : Name := (tree.item r).name

def relname (tree : Tree) (r : Uuid) : Name := (tree.item r).relname

def owner (tree : Tree) (r : Uuid) : Uuid := (tree.item r).owner

/-- `udb_qbe -all region`: the undeleted regions with some property. -/
def udbQbe (tree : Tree) (p : Uuid → Bool) : List Uuid :=
  tree.items.filter fun r => !tree.deleted r && p r

def setItem (tree : Tree) (r : Uuid) (values : Values) : Tree :=
  { tree with item := Function.update tree.item r values }

end Tree

/-! ## Cells and updates -/

inductive RegionError
  | edupregion (uuid : Uuid) (name : Name)
  | enewfqdncell (uuid : Uuid) (name : Name)
  | erootregion (uuid : Uuid) (name : Name)
  | erefintegrity (subs : List Uuid) (uuid : Uuid)
  | ecellmove (uuid owner : Uuid)
  | enotfqdn (uuid : Uuid) (name : Name)
  | eusedUuid (uuid : Uuid)
  | eperm (uuid : Uuid)
  | enxitem (uuid : Uuid)
  deriving DecidableEq, Repr

inductive Stop
  | error (e : RegionError)
  | endless
  deriving DecidableEq, Repr

/-- `Udb_Get_Cell`: the way up from a region to a cell, or to `loopobj`, where there is no cell.  A
way that is longer than the number of regions never ends. -/
def udbGetCell (tree : Tree) (loopobj : Option Uuid) : ℕ → Uuid → Except Stop (Option Uuid)
  | 0, _ => .error .endless
  | fuel + 1, object =>
    if tree.isCell object then .ok (some object)
    else if loopobj = some object then .ok none
    else udbGetCell tree loopobj fuel (tree.owner object)

def udbCellOf (tree : Tree) (object : Uuid) : Except Stop (Option Uuid) :=
  udbGetCell tree none (tree.items.length + 1) object

/-- `Check_Owner`: the owner of a cell is unconstrained, other regions stay in their cell. -/
def checkOwner (tree : Tree) (object owner : Uuid) : Except Stop Unit := do
  let oldCell ← udbCellOf tree object
  if oldCell = some object then return ()
  let newCell ← udbGetCell tree (some object) (tree.items.length + 1) owner
  if newCell ≠ oldCell then throw (.error (.ecellmove object owner))

def udbUpdate (tree : Tree) (object : Uuid) (values : Values) : Except Stop Tree := do
  checkOwner tree object values.owner
  return tree.setItem object values

def udbUpdateName (tree : Tree) (object : Uuid) (name : Name) : Tree :=
  tree.setItem object { tree.item object with name := name }

/-! ## Before the change -/

inductive Event
  | create
  | update
  | delete
  | postcreate
  | postupdate
  | postdelete
  deriving DecidableEq, Repr

/-- The first loop: the nearest region above a name, and the labels that lead to it. -/
def findAncestor (tree : Tree) : Name → Name → Except Stop (Option (Uuid × Name))
  | _, [] => .ok none
  | labels, label :: upname =>
    if (label :: upname).length > 2 then
      match tree.udbQbe fun r => tree.name r = upname with
      | [] => findAncestor tree (labels ++ [label]) upname
      | [upregion] => .ok (some (upregion, labels ++ [label]))
      | r₁ :: _ :: _ => .error (.error (.edupregion r₁ upname))
    else .ok none

/-- What the command keeps between the two runs: the tree, and the arrays of new and old values. -/
structure Env where
  tree : Tree
  new : Values
  old : Values

/-- The first part of `unameit_region_name_change`, for `create` and `update`. -/
def setNewOwner (uuid : Uuid) (isCell : Bool) (event : Event) (env : Env) : Except Stop Env := do
  let tree := env.tree
  let name := env.new.name
  let dupregion := tree.udbQbe fun r => tree.name r = name
  if dupregion ≠ [] ∧ dupregion ≠ [uuid] then throw (.error (.edupregion uuid name))
  match ← findAncestor tree [] name with
  | some (upregion, labels) =>
    if event = .update ∧ isCell = false then
      let cell ← udbCellOf tree uuid
      let upcell ← udbCellOf tree upregion
      if cell ≠ upcell then throw (.error (.enewfqdncell uuid name))
    return { env with new := { env.new with owner := upregion, relname := labels } }
  | none =>
    if isCell = false then throw (.error (.erootregion uuid name))
    return { env with new := { env.new with owner := tree.root, relname := name } }

/-- The second part, for `delete` and `update`: the old values are fetched. -/
def fetchOld (uuid : Uuid) (isCell : Bool) (event : Event) (env : Env) : Except Stop Env := do
  let tree := env.tree
  if isCell = true ∧ event = .delete then
    -- this query is for plain regions only
    let subs := tree.udbQbe fun r => !tree.isCell r && tree.owner r = uuid
    if subs ≠ [] then throw (.error (.erefintegrity (subs.take 10) uuid))
  return { env with old := tree.item uuid }

/-! ## After the change -/

/-- The array `moved_region`, from names to regions. -/
abbrev Moved := List (Name × Uuid)

def trim (name ending : Name) : Name := name.take (name.length - ending.length)

def moveSubregion (before : Tree) (uuid : Uuid) (event : Event) (old new : Values)
    (state : Tree × Moved) (sub : Uuid) : Except Stop (Tree × Moved) := do
  let (tree, moved) := state
  let item := before.item sub
  if (← udbCellOf tree item.owner) ≠ some uuid then return state
  let subrelname := trim item.name old.name
  if (← udbCellOf tree sub) = some sub then
    -- a subcell goes to the old owner of the cell
    let tree ← udbUpdate tree sub
      { tree.item sub with owner := old.owner, relname := subrelname ++ old.relname }
    return (tree, moved)
  else if event = .postupdate then
    let movedname := subrelname ++ new.name
    return (udbUpdateName tree sub movedname, (movedname, sub) :: moved)
  else return state

def reparentSubregion (before : Tree) (old : Values) (tree : Tree) (sub : Uuid) :
    Except Stop Tree :=
  udbUpdate tree sub
    { tree.item sub with owner := old.owner, relname := (before.item sub).relname ++ old.relname }

/-- The second part, for `postdelete` and `postupdate`: the old subregions. -/
def updateOldSubregions (uuid : Uuid) (isCell : Bool) (event : Event) (env : Env) :
    Except Stop (Tree × Moved) := do
  let before := env.tree
  if isCell then
    let subs := before.udbQbe fun r => decide (Extends (before.name r) env.old.name)
    let moved := if event = .postupdate then [(env.new.name, uuid)] else []
    subs.foldlM (moveSubregion before uuid event env.old env.new) (before, moved)
  else
    let subs := before.udbQbe fun r => before.owner r = uuid
    return (← subs.foldlM (reparentSubregion before env.old) before, [])

/-- The search for the lowest moved region above a name.  An empty list of labels stays empty, so
when there is no such region the loop does not end. -/
def findMoved (moved : Moved) : Name → Name → Except Stop (Name × Uuid)
  | relcomps, [] =>
    match moved.lookup [] with
    | some r => .ok (relcomps, r)
    | none => .error .endless
  | relcomps, label :: comps =>
    match moved.lookup (label :: comps) with
    | some r => .ok (relcomps, r)
    | none => findMoved moved (relcomps ++ [label]) comps

/-- One new subregion.  What has been queried is as it was before the loop. -/
def adoptSubregion (before : Tree) (moved : Moved) (uuid : Uuid) (event : Event) (new : Values)
    (tree : Tree) (sub : Uuid) : Except Stop Tree := do
  let item := before.item sub
  if event = .postupdate then
    let (relcomps, newowner) ← findMoved moved [] item.name
    if relcomps = [] then throw (.error (.edupregion sub item.name))
    udbUpdate tree sub { tree.item sub with owner := newowner, relname := relcomps }
  else
    udbUpdate tree sub
      { tree.item sub with owner := uuid, relname := trim item.relname new.relname }

/-- The last part, for `postcreate` and `postupdate`: the new subregions. -/
def updateNewSubregions (uuid : Uuid) (event : Event) (new : Values) (before : Tree)
    (moved : Moved) : Except Stop Tree :=
  let subs := before.udbQbe fun r =>
    before.owner r = new.owner && decide (Extends (before.relname r) new.relname)
  subs.foldlM (adoptSubregion before moved uuid event new) before

def unameitRegionNameChange (uuid : Uuid) (isCell : Bool) (event : Event) (env : Env) :
    Except Stop Env := do
  match event with
  | .create => setNewOwner uuid isCell event env
  | .update => do
    let env ← setNewOwner uuid isCell event env
    fetchOld uuid isCell event env
  | .delete => fetchOld uuid isCell event env
  | .postdelete => do
    let (tree, _) ← updateOldSubregions uuid isCell event env
    return { env with tree := tree }
  | .postcreate => do
    let tree ← updateNewSubregions uuid event env.new env.tree []
    return { env with tree := tree }
  | .postupdate => do
    let (tree, moved) ← updateOldSubregions uuid isCell event env
    let tree ← updateNewSubregions uuid event env.new tree moved
    return { env with tree := tree }

/-! ## Operations -/

inductive Operation
  | create (uuid : Uuid) (isCell : Bool) (name : Name)
  | rename (uuid : Uuid) (name : Name)
  | delete (uuid : Uuid)
  deriving DecidableEq, Repr

/-- Before any trigger is run there is nothing in the arrays. -/
def Tree.env (tree : Tree) (name : Name) : Env :=
  { tree := tree, new := ⟨name, [], tree.root⟩, old := ⟨[], [], tree.root⟩ }

/-- `unameit_create`: the syntax of the name is checked, then the triggers are run around
`udb_create`. -/
def unameitCreate (tree : Tree) (uuid : Uuid) (isCell : Bool) (name : Name) :
    Except Stop Tree := do
  if name.length = 1 then throw (.error (.enotfqdn uuid name))
  let env ← unameitRegionNameChange uuid isCell .create (tree.env name)
  if uuid ∈ tree.items then throw (.error (.eusedUuid uuid))
  let created := { tree with
    items := uuid :: tree.items
    deleted := Function.update tree.deleted uuid false
    isCell := Function.update tree.isCell uuid isCell
    item := Function.update tree.item uuid env.new }
  let env ← unameitRegionNameChange uuid isCell .postcreate { env with tree := created }
  return env.tree

/-- `unameit_update` of the name.  The root cell is protected. -/
def unameitUpdate (tree : Tree) (uuid : Uuid) (name : Name) : Except Stop Tree := do
  if uuid ∉ tree.items ∨ uuid = tree.root then throw (.error (.eperm uuid))
  if tree.deleted uuid then throw (.error (.enxitem uuid))
  if name.length = 1 then throw (.error (.enotfqdn uuid name))
  let isCell := tree.isCell uuid
  let env ← unameitRegionNameChange uuid isCell .update (tree.env name)
  let updated ← udbUpdate tree uuid env.new
  let env ← unameitRegionNameChange uuid isCell .postupdate { env with tree := updated }
  return env.tree

def unameitDelete (tree : Tree) (uuid : Uuid) : Except Stop Tree := do
  if uuid ∉ tree.items ∨ uuid = tree.root then throw (.error (.eperm uuid))
  if tree.deleted uuid then return tree
  let isCell := tree.isCell uuid
  let env ← unameitRegionNameChange uuid isCell .delete (tree.env [])
  let deleted := { tree with deleted := Function.update tree.deleted uuid true }
  let env ← unameitRegionNameChange uuid isCell .postdelete { env with tree := deleted }
  return env.tree

def Operation.run (tree : Tree) : Operation → Except Stop Tree
  | .create uuid isCell name => unameitCreate tree uuid isCell name
  | .rename uuid name => unameitUpdate tree uuid name
  | .delete uuid => unameitDelete tree uuid

/-! ## Canonical trees -/

def Tree.live (tree : Tree) : Set Uuid := {r | r ∈ tree.items ∧ tree.deleted r = false}

/-- Among the regions in `S` the region is where its name puts it: the root cell, whose name every
name extends, is the owner if there is no other. -/
structure Tree.Placed (tree : Tree) (S : Set Uuid) (r : Uuid) : Prop where
  fqdn : 2 ≤ (tree.name r).length
  nearest : Nearest S tree.name (tree.name r) (tree.owner r)
  relname : tree.name r = tree.relname r ++ tree.name (tree.owner r)

/-- No two regions in `S` share a name, and all of them are where their names put them. -/
structure Tree.Ordered (tree : Tree) (S : Set Uuid) : Prop where
  inj : Set.InjOn tree.name S
  placed : ∀ r ∈ S, r ≠ tree.root → tree.Placed S r

structure Tree.RootSound (tree : Tree) : Prop where
  live : tree.root ∈ tree.live
  isCell : tree.isCell tree.root = true
  item : tree.item tree.root = ⟨[], [], tree.root⟩

structure Tree.Canonical (tree : Tree) : Prop where
  nodup : tree.items.Nodup
  root : tree.RootSound
  ordered : tree.Ordered tree.live

end Region
end Unameit
