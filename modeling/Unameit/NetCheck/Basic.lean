import Unameit.Inet.Basic
import Mathlib.Data.List.Sort
import Mathlib.Data.List.Lex
import Mathlib.Data.Char
import Mathlib.Tactic

/-!
# NetCheck — the rules for nets, ranges and nodes at commit

At commit the nets, ranges and nodes that the transaction has touched are compared with their parent
nets and with the ranges of these.  Addresses are lower case hexadecimal texts of one length,
compared as texts.  The parent nets are visited in the order of `array names`, which is an argument
here.  Errors mention attributes by their role in the family (`Param`).
-/

namespace Unameit
namespace NetCheck

inductive Choice
  | available
  | reserved
  deriving DecidableEq, Repr

inductive NetType
  | fixed
  | varying
  deriving DecidableEq, Repr

inductive RangeType
  | static
  | dynamic
  deriving DecidableEq, Repr

inductive Param
  | netNetof
  | netStart
  | netBits
  | netEnd
  | rangeNetof
  | rangeStart
  | rangeEnd
  | rangeDevices
  | nodeNetof
  | nodeAddress
  deriving DecidableEq, Repr

/-- What the procedures read in `UNAMEIT_INET_INFO` and `UNAMEIT_ATTRIBUTE_UUID`.  `cname` has the
node class of a device label, `hasNodeAddress` tells the classes with the address attribute of the
family. -/
structure Info where
  nodeZero : Choice
  lastNode : Choice
  netZero : Choice
  lastNet : Choice
  cname : CString → Option CString
  hasNodeAddress : CString → Bool

structure Net where
  netof : Option DbObject
  netStart : CString
  netEnd : CString
  netBits : ℤ
  netMask : CString
  netType : NetType
  deriving DecidableEq, Repr

structure Range where
  netof : DbObject
  rangeStart : CString
  rangeEnd : CString
  rangeType : RangeType
  rangeDevices : List CString
  deriving DecidableEq, Repr

structure Node where
  netof : DbObject
  address : CString
  deriving DecidableEq, Repr

/-- The database as the procedures see it: `udb_fetch` of the attributes, and the items that the
commands `udb_inet_net_ranges`, `udb_inet_net_anode` and `udb_inet_net_asubnet` find in a net.
Owners do not run in a loop. -/
structure Db where
  net : DbObject → Net
  range : DbObject → Range
  node : DbObject → Node
  cls : DbObject → CString
  owner : DbObject → Option DbObject
  depth : DbObject → ℕ
  depth_lt : ∀ {item o}, owner item = some o → depth o < depth item
  netRanges : DbObject → List DbObject
  netAnode : DbObject → Option DbObject
  netAsubnet : DbObject → Option DbObject

lemma Db.depth_lt_of_no_owner : ∀ {item o : DbObject},
    (fun _ : DbObject => (none : Option DbObject)) item = some o →
      (fun _ : DbObject => 0) o < (fun _ : DbObject => 0) item :=
  nofun

inductive Fault
  | einetNotSubnetted (item : Option DbObject) (attr : Param) (net : DbObject)
  | einetFixedBits (item : DbObject) (attr : Param) (bits : ℤ) (netof : Param) (net : DbObject)
  | einetNetZero (item : DbObject) (attr : Param) (start : CString) (netof : Param)
      (net : DbObject)
  | einetLastNet (item : DbObject) (attr : Param) (last : CString) (netof : Param)
      (net : DbObject)
  | einetSubnetted (item : Option DbObject) (attr : Param) (net : DbObject)
  | einetNodeZero (item : DbObject) (attr : Param) (address : CString) (netof : Param)
      (net : DbObject)
  | einetLastNode (item : DbObject) (attr : Param) (address : CString) (netof : Param)
      (net : DbObject)
  | einetRangeOverlap (range last : DbObject)
  | einetBadNode (node range : DbObject) (attr : Param)
  | noSuchVariable
  | invalidCommandName (command : CString)
  deriving DecidableEq, Repr

/-- `unameit_address_mask_bits`: the number of ones at the start of a mask, `-1` if anything but
zeros follows them. -/
def unameitAddressMaskBits (mask : CString) : ℤ :=
  let ones := (4 * (mask.takeWhile (· = 'f')).length : ℤ)
  let (ones, rest) :=
    match mask.dropWhile (· = 'f') with
    | 'e' :: rest => (ones + 3, rest)
    | 'c' :: rest => (ones + 2, rest)
    | '8' :: rest => (ones + 1, rest)
    | rest => (ones, rest)
  if rest.dropWhile (· = '0') = [] then ones else -1

/-- A net is subnetted unless it is `Fixed` with the mask of its own length. -/
def Net.Subnetted (n : Net) : Prop :=
  n.netType ≠ .fixed ∨ unameitAddressMaskBits n.netMask ≠ n.netBits

instance (n : Net) : Decidable n.Subnetted :=
  inferInstanceAs (Decidable (_ ∨ _))

/-- A static range without devices. -/
def Range.DenyAll (r : Range) : Prop :=
  r.rangeType = .static ∧ r.rangeDevices = []

instance (r : Range) : Decidable r.DenyAll :=
  inferInstanceAs (Decidable (_ ∧ _))

/-- The node classes that a range admits.  Dynamic ranges admit none. -/
def allowedClasses (info : Info) (r : Range) : List CString :=
  match r.rangeType with
  | .static => r.rangeDevices.filterMap info.cname
  | .dynamic => []

/-- `order` lists the names of an array with the given keys. -/
def ArrayNames {κ : Type} (order keys : List κ) : Prop :=
  order.Nodup ∧ ∀ o, o ∈ order ↔ o ∈ keys

/-- Two verdicts with a part in common agree if this part holds or the other parts agree. -/
theorem or_iff_or_iff {a b c : Prop} : (a ∨ b ↔ a ∨ c) ↔ a ∨ (b ↔ c) := by
  by_cases h : a <;> simp [h]

/-! ## Nets -/

def checkSubnet (info : Info) (db : Db) (net subnet : DbObject) : Except Fault Unit :=
  let n := db.net net
  let s := db.net subnet
  if n.netType = .fixed ∧ s.netBits ≠ unameitAddressMaskBits n.netMask then
    .error (.einetFixedBits subnet .netBits s.netBits .netNetof net)
  else if info.netZero = .reserved ∧ s.netStart = n.netStart then
    .error (.einetNetZero subnet .netStart s.netStart .netNetof net)
  else if info.lastNet = .reserved ∧ s.netEnd = n.netEnd then
    .error (.einetLastNet subnet .netEnd s.netEnd .netNetof net)
  else .ok ()

/-- The body of the loop over the parents.  The parent of the universe net is the empty text, for
which `udb_fetch` sets no variables. -/
def checkParent (info : Info) (db : Db) (nets : List DbObject) :
    Option DbObject → Except Fault Unit
  | none => .error .noSuchVariable
  | some net =>
    let subnets := nets.filter fun s => (db.net s).netof = some net
    if (db.net net).Subnetted then subnets.forM (checkSubnet info db net)
    else .error (.einetNotSubnetted subnets.head? .netNetof net)

/-- The body of the last loop.  The variable `net_bits` is bound to the attribute `net_end`, so the
mask bits are compared with the text of an address: `exprEq` is how `expr` does this.  There is no
command `udb_inet_asubnet`. -/
def checkContents (exprEq : ℤ → CString → Bool) (db : Db) (net : DbObject) : Except Fault Unit :=
  let n := db.net net
  if n.netType = .fixed ∧ exprEq (unameitAddressMaskBits n.netMask) n.netEnd then
    .error (.invalidCommandName "udb_inet_asubnet".toList)
  else
    match (db.netRanges net).head? with
    | some r => .error (.einetSubnetted (some r) .rangeNetof net)
    | none =>
      match db.netAnode net with
      | some node => .error (.einetSubnetted (some node) .nodeNetof net)
      | none => .ok ()

def unameitInetCheckNets (exprEq : ℤ → CString → Bool) (info : Info) (db : Db)
    (order : List (Option DbObject)) (nets : List DbObject) : Except Fault Unit := do
  order.forM (checkParent info db nets)
  nets.forM (checkContents exprEq db)

/-! ## Ranges -/

/-- The body of the loop over the ranges of a net.  The variables `last` and `lastend` are the last
range that was seen and its end; the first range is recognised by their absence. -/
def checkNetRange (info : Info) (db : Db) (net : DbObject) (last : Option DbObject)
    (range : DbObject) : Except Fault (Option DbObject) :=
  let r := db.range range
  match last with
  | none =>
    if info.nodeZero = .reserved ∧ r.rangeStart = (db.net net).netStart ∧ ¬ r.DenyAll then
      .error (.einetNodeZero range .rangeStart r.rangeStart .rangeNetof net)
    else .ok (some range)
  | some last =>
    if r.rangeStart ≤ (db.range last).rangeEnd then .error (.einetRangeOverlap range last)
    else .ok (some range)

def checkLastRange (info : Info) (db : Db) (net : DbObject) :
    Option DbObject → Except Fault (Option DbObject)
  | none => .ok none
  | some last =>
    let r := db.range last
    if info.lastNode = .reserved ∧ r.rangeEnd = (db.net net).netEnd ∧ ¬ r.DenyAll then
      .error (.einetLastNode last .rangeEnd r.rangeEnd .rangeNetof net)
    else .ok (some last)

/-- The body of the loop over the parent nets.  Nothing unsets `last` and `lastend` here. -/
def checkRangesOf (info : Info) (db : Db) (ranges : List DbObject) (last : Option DbObject)
    (net : DbObject) : Except Fault (Option DbObject) :=
  if (db.net net).Subnetted then .error (.einetSubnetted ranges.head? .rangeNetof net)
  else (db.netRanges net).foldlM (checkNetRange info db net) last >>= checkLastRange info db net

/-- The body of the last loop.  `udbInetCheckRange` is the command of that name: it finds a node
between two addresses that is of none of the classes. -/
def checkRangeNodes
    (udbInetCheckRange : DbObject → CString → CString → List CString → Option DbObject)
    (info : Info) (db : Db) (range : DbObject) : Except Fault Unit :=
  let r := db.range range
  match udbInetCheckRange range r.rangeStart r.rangeEnd (allowedClasses info r) with
  | some node => .error (.einetBadNode node range .rangeDevices)
  | none => .ok ()

def unameitInetCheckRanges
    (udbInetCheckRange : DbObject → CString → CString → List CString → Option DbObject)
    (info : Info) (db : Db) (order ranges : List DbObject) : Except Fault Unit := do
  let _ ← order.foldlM (checkRangesOf info db ranges) none
  ranges.forM (checkRangeNodes udbInetCheckRange info db)

/-! ## Nodes -/

/-- The walk from a node to its owners, as long as these are nodes; the last class that was seen is
compared even if the walk ends there.  The first argument bounds the length of the walk. -/
def ownerAllowed (info : Info) (db : Db) (ok : List CString) : ℕ → DbObject → Bool
  | 0, _ => false
  | fuel + 1, item =>
    if db.cls item ∈ ok then true
    else
      match db.owner item with
      | none => false
      | some o =>
        if info.hasNodeAddress (db.cls o) then ownerAllowed info db ok fuel o
        else db.cls o ∈ ok

def deviceAllowed (info : Info) (db : Db) (range node : DbObject) : Bool :=
  ownerAllowed info db (allowedClasses info (db.range range)) (db.depth node + 1) node

/-- The body of the loop over the nodes of a net.  The last address is checked under the setting of
`node_zero`. -/
def checkNode (info : Info) (db : Db) (net : DbObject)
    (addressNode : List (CString × DbObject)) (node : DbObject) :
    Except Fault (List (CString × DbObject)) :=
  let address := (db.node node).address
  if info.nodeZero = .reserved ∧ address = (db.net net).netStart then
    .error (.einetNodeZero node .nodeAddress address .nodeNetof net)
  else if info.nodeZero = .reserved ∧ address = (db.net net).netEnd then
    .error (.einetLastNode node .nodeAddress address .nodeNetof net)
  else .ok ((address, node) :: addressNode)

def addresses (addressNode : List (CString × DbObject)) : List CString :=
  (addressNode.map Prod.fst).dedup.insertionSort (· ≤ ·)

def fetchRange (db : Db) (address : CString) : List DbObject → Option (DbObject × List DbObject)
  | [] => none
  | range :: rangelist =>
    if (db.range range).rangeEnd < address then fetchRange db address rangelist
    else some (range, rangelist)

/-- The loop over the sorted addresses.  Addresses before the current range are skipped, but a range
that was just fetched may also start after the address. -/
def sweepAddresses (info : Info) (db : Db) (addressNode : List (CString × DbObject)) :
    Option DbObject → List DbObject → List CString → Except Fault Unit
  | _, _, [] => .ok ()
  | range, rangelist, address :: rest =>
    if range.any fun r => address < (db.range r).rangeStart then
      sweepAddresses info db addressNode range rangelist rest
    else
      match fetchRange db address (range.toList ++ rangelist) with
      | none => .ok ()
      | some (r, rangelist) =>
        match addressNode.lookup address with
        | none => .error .noSuchVariable
        | some node =>
          if deviceAllowed info db r node then
            sweepAddresses info db addressNode (some r) rangelist rest
          else .error (.einetBadNode node r .rangeDevices)

/-- The body of the loop over the parent nets.  Nothing unsets `address_node` here. -/
def checkNodesOf (info : Info) (db : Db) (nodes : List DbObject)
    (addressNode : List (CString × DbObject)) (net : DbObject) :
    Except Fault (List (CString × DbObject)) :=
  let checkNet := nodes.filter fun n => (db.node n).netof = net
  if (db.net net).Subnetted then .error (.einetSubnetted checkNet.head? .nodeNetof net)
  else do
    let addressNode ← checkNet.foldlM (checkNode info db net) addressNode
    sweepAddresses info db addressNode none (db.netRanges net) (addresses addressNode)
    pure addressNode

def unameitInetCheckNodes (info : Info) (db : Db) (order nodes : List DbObject) :
    Except Fault Unit := do
  let _ ← order.foldlM (checkNodesOf info db nodes) []
  pure ()

def unreserved : Info where
  nodeZero := .available
  lastNode := .available
  netZero := .available
  lastNet := .available
  cname _ := none
  hasNodeAddress _ := false

end NetCheck
end Unameit
