import Unameit.Inet.Basic

/-!
# Inet.Tree — filing items in the block tree

The tree management functions of the address family code: looking up a prefix, creating the
blocks it needs, filing and dropping items, moving items to another net and recycling blocks.

Loops over the tree carry a fuel argument.  Every sub-block is longer than its parent, so the
length of a prefix bounds the number of blocks above it, and the fuel given at the calls is never
used up on a well-formed tree.
-/

namespace Unameit
namespace Inet

open HoleSeq (nth put putRun copyRun cardinality)
open Function (update)

/-! ## Check tables -/

def inetCheck (table : List (DbObject × InetObjType)) (o : DbObject) (type : InetObjType) :
    List (DbObject × InetObjType) :=
  (o, type) :: table.filter (fun e => e.1 ≠ o)

def inetUncheck (table : List (DbObject × InetObjType)) (o : DbObject) :
    List (DbObject × InetObjType) :=
  table.filter (fun e => e.1 ≠ o)

/-! ## Free lists -/

/-- `Udb_Edit_Free_Object`: recycle the head of the class's free list, attributes and all, or
create a new object. -/
def udbEditFreeObject (t : Tree) (cls : BlockClass) : DbObject × Tree :=
  match t.free cls with
  | o :: rest => (o, { t with free := update t.free cls rest })
  | [] => (t.nextObject, { t with nextObject := t.nextObject + 1 })

def udbAppendFreeList (t : Tree) (cls : BlockClass) (o : DbObject) : Tree :=
  { t with free := update t.free cls (o :: t.free cls) }

/-! ## Item lists -/

def inetFirstItem (t : Tree) (block : DbObject) (type : InetObjType) : Option DbObject :=
  (t.items type block).head?

def Tree.setItems (t : Tree) (type : InetObjType) (block : DbObject) (l : List DbObject) : Tree :=
  { t with items := update t.items type (update (t.items type) block l) }

def inetAdd (st : State) (block : DbObject) (type : InetObjType) (item : DbObject) : State :=
  let items := st.tree.items type block ++ [item]
  { st with
    tree := st.tree.setItems type block items
    blockCheck :=
      if type ≠ .range ∧ items.length = 2 then inetCheck st.blockCheck block type
      else st.blockCheck }

/-- `Inet_Drop`: remove an item from a block's list and return the first item that remains.
The item must be listed, or the process stops. -/
def inetDrop (st : State) (block : DbObject) (type : InetObjType) (item : DbObject) :
    Option (Option DbObject × State) :=
  if item ∈ st.tree.items type block then
    let items := (st.tree.items type block).erase item
    some (items.head?,
      { st with
        tree := st.tree.setItems type block items
        blockCheck :=
          if type ≠ .range ∧ items.length = 1 then inetUncheck st.blockCheck block
          else st.blockCheck })
  else
    none

/-! ## Moving items between nets -/

/-- The position at which `Inet_Move_Range` stops: the loop runs while `start` compares greater,
and steps once more after the element that ends it. -/
def rangePosition (nd : NetData) (start : CString) : List DbObject → ℕ
  | [] => 0
  | o :: rest =>
    if strcmp start (nd.rangeStart o) > 0 then rangePosition nd start rest + 1 else 1

/-- `Inet_Move_Range`: move a range from the list of one net block to that of another. -/
def inetMoveRange (nd : NetData) (old new : Option DbObject) (range : DbObject) : NetData :=
  if old = new then nd
  else
    let dropped : DbObject → List DbObject :=
      match old with
      | none => nd.netRanges
      | some b => update nd.netRanges b ((nd.netRanges b).erase range)
    let placed : DbObject → List DbObject :=
      match new with
      | none => dropped
      | some b =>
        let i := rangePosition nd (nd.rangeStart range) (dropped b)
        update dropped b ((dropped b).insertIdx i range)
    { nd with netRanges := placed }

def inetUpdateBlockCount (nd : NetData) (old new : Option DbObject) (item : DbObject)
    (type : InetObjType) : NetData :=
  if old = new then nd
  else
    let left : NetData :=
      match old with
      | none => nd
      | some b =>
        let count := nd.netCount type b - 1
        { nd with
          netCount :=
            update nd.netCount type (update (nd.netCount type) b count)
          netAny :=
            if count = 0 then
              update nd.netAny type (update (nd.netAny type) b none)
            else nd.netAny }
    match new with
    | none => left
    | some b =>
      let count := left.netCount type b + 1
      { left with
        netCount :=
          update left.netCount type (update (left.netCount type) b count)
        netAny :=
          if count = 1 then
            update left.netAny type (update (left.netAny type) b (some item))
          else left.netAny }

def inetSetNetof (nd : NetData) (item : DbObject) (type : InetObjType) (net : Option DbObject) :
    NetData :=
  let oldBlock := (nd.netof item).bind nd.itemBlock
  let newBlock := net.bind nd.itemBlock
  let moved :=
    match type with
    | .node => inetUpdateBlockCount nd oldBlock newBlock item .node
    | .net => inetUpdateBlockCount nd oldBlock newBlock item .net
    | .range => inetMoveRange nd oldBlock newBlock item
  { moved with
    itemCheck :=
      match net with
      | some _ => inetCheck nd.itemCheck item type
      | none => inetUncheck nd.itemCheck item
    netof := update nd.netof item net }

def inetReparentItems (nd : NetData) (items : List DbObject) (type : InetObjType)
    (net : Option DbObject) : NetData :=
  items.foldl (fun nd item => inetSetNetof nd item type net) nd

/-- The loop of `Inet_Reparent` over the sub-blocks of `blk`, from index `i` on; `visit` is the
recursive call.  A sub-block that is no longer in use is recycled. -/
def inetReparentLoop (fam : Family) (visit : Tree → NetData → InetBlock → Bool × Tree × NetData)
    (blk : InetBlock) : ℕ → ℕ → Bool → Tree → NetData → Bool × Tree × NetData
  | 0, _, inUse, t, nd => (inUse, t, nd)
  | fuel + 1, i, inUse, t, nd =>
    if i < (t.subs blk.block).length then
      match nth (t.subs blk.block) i with
      | none => inetReparentLoop fam visit blk fuel (i + 1) inUse t nd
      | some o =>
        let bits := t.bits o
        let count := 1 <<< (blk.bits + subBits blk.bits - bits)
        match visit t nd ⟨bits, o⟩ with
        | (false, t', nd') =>
          let t'' := udbAppendFreeList t' (if bits < fam.bits then .block else .slot) o
          let subs := putRun (t''.subs blk.block) i (fun _ => none) count
          inetReparentLoop fam visit blk fuel (i + count) inUse
            { t'' with subs := update t''.subs blk.block subs } nd'
        | (true, t', nd') => inetReparentLoop fam visit blk fuel (i + count) true t' nd'
    else
      (inUse, t, nd)

/-- `Inet_Reparent`: give the items of a block and of its sub-blocks, up to the next subnets, a
new parent net.  The result says whether the block is still in use. -/
def inetReparent (fam : Family) (net : Option DbObject) :
    ℕ → Tree → NetData → InetBlock → Bool → Bool × Tree × NetData
  | 0, t, nd, _, _ => (true, t, nd)
  | fuel + 1, t, nd, blk, skipNets =>
    if ¬ skipNets ∧ blk.bits = fam.bits then
      let nodes := t.items .node blk.block
      (!nodes.isEmpty, t, inetReparentItems nd nodes .node net)
    else
      let nets := t.items .net blk.block
      if ¬ skipNets ∧ nets ≠ [] then
        (true, t, inetReparentItems nd nets .net net)
      else
        let ranges := t.items .range blk.block
        let nd' := inetReparentItems nd ranges .range net
        match inetReparentLoop fam
            (fun t nd sub => inetReparent fam net fuel t nd sub false)
            blk (t.subs blk.block).length 0 (!ranges.isEmpty) t nd' with
        | (false, t', nd'') =>
          -- Trim the sub-blocks of an unused block to an empty sequence.
          (false, { t' with subs := update t'.subs blk.block [] }, nd'')
        | (true, t', nd'') => (true, t', nd'')

/-! ## Lookup -/

def inetFindLoop (fam : Family) (t : Tree) (p : InetPrefix) :
    ℕ → Option DbObject → InetBlock → Option DbObject × InetBlock
  | 0, net, blk => (net, blk)
  | fuel + 1, net, blk =>
    if blk.bits < p.bits then
      match nth (t.subs blk.block) (subIndex p blk.bits) with
      | none => (net, blk)
      | some o =>
        if t.bits o > p.bits then (net, blk)
        else
          let first := inetFirstItem t o .net
          -- A block that starts a new network records its net object.
          let net' := if t.bits o < fam.bits ∧ first ≠ none then first else net
          inetFindLoop fam t p fuel net' ⟨t.bits o, o⟩
    else
      (net, blk)

def inetFind (fam : Family) (t : Tree) (p : InetPrefix) : Option DbObject × Option InetBlock :=
  match t.rootBlock with
  | none => (t.universeNet, none)
  | some r =>
    let (net, blk) := inetFindLoop fam t p p.bits t.universeNet ⟨0, r⟩
    (net, some blk)

/-! ## Insertion -/

/-- Point the `super` links of the first `n` sub-blocks of a sequence to a block. -/
def relink (super : DbObject → Option DbObject) (seq : List (Option DbObject)) (block : DbObject) :
    ℕ → DbObject → Option DbObject
  | 0 => super
  | n + 1 =>
    match nth seq n with
    | none => relink super seq block n
    | some o => update (relink super seq block n) o (some block)

def inetInsertRoot (st : State) (net : DbObject) : State :=
  let t := st.tree
  let new := t.nextObject
  { st with
    tree :=
      { t with
        nextObject := t.nextObject + 1
        rootBlock := some new
        universeNet := some net
        bits := update t.bits new 0
        items := update t.items .net (update (t.items .net) new [net]) }
    net :=
      { st.net.setItemBlock net (some new) with
        netCount := fun type => update (st.net.netCount type) new 0
        netAny := fun type => update (st.net.netAny type) new none } }

/-- `Inet_New_Block`: create the next block on the way from `blk` down to the prefix `p`, taking
over the sub-blocks of `blk` that it subsumes. -/
def inetNewBlock (fam : Family) (st : State) (p : InetPrefix) (blk : InetBlock) :
    State × InetBlock :=
  let index := subIndex p blk.bits
  let full := blk.bits + subBits blk.bits
  let count := if full > p.bits then 1 <<< (full - p.bits) else 1
  let bits := if full > p.bits then p.bits else full
  let cls : BlockClass := if bits = fam.bits then .slot else .block
  let (new, t) := udbEditFreeObject st.tree cls
  let pSubs := t.subs blk.block
  let subsumed := if bits < fam.bits then copyRun pSubs index count else []
  -- The sub-blocks of a recycled object are only replaced when some are taken over.
  let subs := if subsumed = [] then t.subs new else subsumed
  let super := update t.super new (some blk.block)
  let tree : Tree :=
    { t with
      bits := update t.bits new bits
      stamp := if cls = .slot then update t.stamp new inetMaxStamp else t.stamp
      super := relink super subsumed new count
      subs := update (update t.subs new subs) blk.block
        (putRun pSubs index (fun _ => some new) count) }
  let net : NetData :=
    if cls = .slot then st.net
    else
      { st.net with
        netCount := fun type => update (st.net.netCount type) new 0
        netAny := fun type => update (st.net.netAny type) new none }
  ({ st with tree := tree, net := net }, ⟨bits, new⟩)

def inetInsertLoop (fam : Family) (p : InetPrefix) :
    ℕ → State → InetBlock → State × InetBlock
  | 0, st, blk => (st, blk)
  | fuel + 1, st, blk =>
    if blk.bits < p.bits then
      let (st', blk') := inetNewBlock fam st p blk
      inetInsertLoop fam p fuel st' blk'
    else
      (st, blk)

/-- The switch of `Inet_Insert`: file item `o` in the block that was found or created for it, in
the network `net` that was found. -/
def inetInsertAt (fam : Family) (st : State) (blk : InetBlock) (net : Option DbObject)
    (type : InetObjType) (o : DbObject) : State :=
  match type with
  | .node => inetAdd { st with net := inetSetNetof st.net o .node net } blk.block .node o
  | .range =>
    let nd := st.net.setItemBlock o (some blk.block)
    inetAdd { st with net := inetSetNetof nd o .range net } blk.block .range o
  | .net =>
    -- The block of the net is set before any node or subnet is moved into it.
    let nd := st.net.setItemBlock o (some blk.block)
    if inetFirstItem st.tree blk.block .net = none then
      let (_, t, nd') := inetReparent fam (some o) (fam.bits + 1) st.tree nd blk true
      inetAdd { st with tree := t, net := inetSetNetof nd' o .net net } blk.block .net o
    else
      -- The block already carries a net, whose parent is ours too.
      inetAdd { st with net := inetSetNetof nd o .net (net.bind nd.netof) } blk.block .net o

/-- `Inet_Insert`: file item `o` at prefix `p`.  Without a root block the only prefix that is
accepted is that of the universe net. -/
def inetInsert (fam : Family) (st : State) (p : InetPrefix) (type : InetObjType) (o : DbObject) :
    State :=
  match inetFind fam st.tree p with
  | (_, none) => inetInsertRoot st o
  | (net, some found) =>
    let (st, blk) := inetInsertLoop fam p p.bits st found
    inetInsertAt fam st blk net type o

/-! ## Deletion -/

/-- `Inet_GC_Block`: recycle a block that has no sub-blocks or is not on a natural boundary, and
then its parent if that carries neither a net nor a range. -/
def inetGcBlock (fam : Family) (p : InetPrefix) : ℕ → Tree → InetBlock → Tree
  | 0, t, _ => t
  | fuel + 1, t, blk =>
    match t.super blk.block with
    | none => t
    | some parent =>
      let pbits := t.bits parent
      let index := subIndex p pbits
      let subs := t.subs blk.block
      let count := 1 <<< subBits blk.bits
      let next : Tree → Tree := fun t' =>
        let t'' := udbAppendFreeList t' .block blk.block
        if inetFirstItem t'' parent .net ≠ none ∨ inetFirstItem t'' parent .range ≠ none then
          t''
        else
          inetGcBlock fam p fuel t'' ⟨pbits, parent⟩
      if pbits + subBits pbits > blk.bits then
        -- The block is absorbed: its sub-blocks are relinked to the parent.
        next
          { t with
            super := relink t.super subs parent count
            subs := update
              (update t.subs parent
                (putRun (t.subs parent) index (nth subs) count))
              blk.block [] }
      else if cardinality subs > 0 then
        t
      else
        next
          { t with
            subs := update
              (update t.subs parent (put (t.subs parent) index none))
              blk.block [] }

/-- `Inet_Set_Stamp`, which asserts that the stamp is in range. -/
def inetSetStamp (t : Tree) (block : DbObject) (stamp : ℕ) : Option Tree :=
  if stamp ≤ inetMaxStamp then
    some { t with stamp := update t.stamp block stamp }
  else
    none

/-- The tree and net data after one item was dropped from its block; `first` is what `Inet_Drop`
returned and `net` what `Inet_Find` did. -/
def inetDeleteDropped (fam : Family) (st : State) (p : InetPrefix) (blk : InetBlock)
    (type : InetObjType) (o : DbObject) (net first : Option DbObject) (now : ℕ) : Option State :=
  match type with
  | .node =>
    match first with
    | none =>
      -- Minutes are precise enough, and last long enough.
      (inetSetStamp st.tree blk.block (now / 60)).map fun t => { st with tree := t }
    | some _ => some st
  | .range =>
    let t :=
      if first = none ∧ inetFirstItem st.tree blk.block .net = none then
        inetGcBlock fam p (fam.bits + 1) st.tree blk
      else
        st.tree
    some { st with
      tree := t
      net := st.net.setItemBlock o none }
  | .net =>
    let clear : Tree → NetData → State := fun t nd =>
      { st with
        tree := t
        net := nd.setItemBlock o none }
    if some o ≠ net then
      if first = net then some (clear st.tree st.net) else none
    else if first = none then
      -- Subnets move to the former parent; an unused block is recycled.
      match inetReparent fam (st.net.netof o) (fam.bits + 1) st.tree st.net blk true with
      | (true, t, nd) => some (clear t nd)
      | (false, t, nd) => some (clear (inetGcBlock fam p (fam.bits + 1) t blk) nd)
    else
      match inetReparent fam first (fam.bits + 1) st.tree st.net blk true with
      | (_, t, nd) => some (clear t nd)

/-- `Inet_Delete`: remove item `o`, which is filed at prefix `p`.  The result is `none` when one
of the checks of the source fails and the process stops. -/
def inetDelete (fam : Family) (st : State) (p : InetPrefix) (type : InetObjType) (o : DbObject)
    (now : ℕ) : Option State :=
  match inetFind fam st.tree p with
  | (some net, some blk) =>
    if blk.bits ≠ p.bits ∨ (type = .net ∧ some o = st.tree.universeNet) then none
    else do
      let (first, st) ← inetDrop st blk.block type o
      let st ← inetDeleteDropped fam st p blk type o (some net) first now
      return { st with net := inetSetNetof st.net o type none }
  | _ => none

end Inet
end Unameit
