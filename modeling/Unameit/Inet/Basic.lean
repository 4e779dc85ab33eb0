import Unameit.Lib.HoleSeq
import Unameit.Lib.PrefixTree

/-!
# Inet — the data of an address family

The address families of the database file nodes, nets and ranges in a tree of blocks.  `Tree` has
the attributes of the block and slot classes that make up the tree, `NetData` those of nets that
summarise their contents and those of the filed items.

Database objects are plain references.  A column is a total function: an object that was never
written to has the default value of the attribute, as a newly created object does.
-/

namespace Unameit

abbrev DbObject := ℕ

/-- A C string, without its terminating NUL. -/
abbrev CString := List Char

instance : LawfulBEq CString :=
  inferInstanceAs (LawfulBEq (List Char))

/-- The binary form of an address: one entry for each octet. -/
abbrev Octets := List (BitVec 8)

/-- `strcmp`: the sign of the lexicographic comparison. -/
def strcmp (s t : CString) : ℤ :=
  if s < t then -1 else if s = t then 0 else 1

namespace Inet

/-- The parameters of an address family: its name, the size of its addresses and the names of
the user visible attributes that error messages mention. -/
structure Family where
  fname : CString
  octets : ℕ
  octets_pos : 0 < octets
  nodeAddressAttribute : CString
  netNetofAttribute : CString
  netStartAttribute : CString
  netBitsAttribute : CString
  rangeStartAttribute : CString
  rangeEndAttribute : CString

def Family.bits (fam : Family) : ℕ :=
  fam.octets <<< 3

inductive InetObjType
  | net
  | node
  | range
  deriving DecidableEq, Repr

structure InetPrefix where
  bits : ℕ
  octets : Octets
  deriving DecidableEq, Repr

structure InetBlock where
  bits : ℕ
  block : DbObject
  deriving DecidableEq, Repr

/-- `InetInfo`: the user visible attributes of an item that decide where it is filed, and those
whose change only asks for a check at commit. -/
inductive InetInfo
  | node (address : CString)
  | net (start : CString) (bits : ℕ) (mask type : CString)
  | range (start : CString) (last : CString) (type : CString) (devices : List DbObject)
  deriving DecidableEq, Repr

def InetInfo.objType : InetInfo → InetObjType
  | .node _ => .node
  | .net .. => .net
  | .range .. => .range

/-! ## Sub-block indices -/

/-- Sub-blocks end at the next boundary of `NSHIFT` bits. -/
def nshift : ℕ := 4

def subBits (bits : ℕ) : ℕ :=
  nshift - (bits &&& (nshift - 1))

def subMask (bits : ℕ) : ℕ :=
  (1 <<< subBits bits) - 1

def subShift (bits : ℕ) : ℕ :=
  8 - (bits &&& 7) - subBits bits

/-- `SUB_INDEX`: the index of the sub-block of a block of length `bits` that `p` points into. -/
def subIndex (p : InetPrefix) (bits : ℕ) : ℕ :=
  ((p.octets.getD (bits >>> 3) 0).toNat >>> subShift bits) &&& subMask bits

def inetMaxStamp : ℕ := 0x7fffffff

/-! ## The state of a family -/

inductive BlockClass
  | block
  | slot
  deriving DecidableEq, Repr

/-- The attributes of blocks and slots that make up the tree.  `items` is `nets`, `nodes` or
`ranges`, chosen by `Inet_List_Name`; `free` is the chain of `nextfree` links of a class. -/
structure Tree where
  rootBlock : Option DbObject
  universeNet : Option DbObject
  bits : DbObject → ℕ
  super : DbObject → Option DbObject
  subs : DbObject → List (Option DbObject)
  items : InetObjType → DbObject → List DbObject
  stamp : DbObject → ℕ
  free : BlockClass → List DbObject
  nextObject : DbObject

/-- The attributes of blocks that describe the net they carry, and the attributes of items.
`netCount` is `net_nodes` for nodes and `net_subnets` for nets; `netAny` is `net_anode` and
`net_asubnet`; `itemCheck` is the family's part of `itemCheckTable`. -/
structure NetData where
  netof : DbObject → Option DbObject
  itemBlock : DbObject → Option DbObject
  info : DbObject → Option InetInfo
  netCount : InetObjType → DbObject → ℤ
  netAny : InetObjType → DbObject → Option DbObject
  netRanges : DbObject → List DbObject
  itemCheck : List (DbObject × InetObjType)

/-- The state of one address family; `blockCheck` is its part of `blockCheckTable`. -/
structure State where
  tree : Tree
  net : NetData
  blockCheck : List (DbObject × InetObjType)

def Tree.empty : Tree where
  rootBlock := none
  universeNet := none
  bits := fun _ => 0
  super := fun _ => none
  subs := fun _ => []
  items := fun _ _ => []
  stamp := fun _ => 0
  free := fun _ => []
  nextObject := 0

def NetData.empty : NetData where
  netof := fun _ => none
  itemBlock := fun _ => none
  info := fun _ => none
  netCount := fun _ _ => 0
  netAny := fun _ _ => none
  netRanges := fun _ => []
  itemCheck := []

def State.empty : State where
  tree := Tree.empty
  net := NetData.empty
  blockCheck := []

def NetData.setItemBlock (nd : NetData) (o : DbObject) (block : Option DbObject) : NetData :=
  { nd with itemBlock := Function.update nd.itemBlock o block }

def NetData.rangeStart (nd : NetData) (o : DbObject) : CString :=
  match nd.info o with
  | some (.range start _ _ _) => start
  | _ => []

end Inet
end Unameit
