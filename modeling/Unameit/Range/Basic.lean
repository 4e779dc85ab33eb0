import Unameit.Inet.Basic
import Unameit.Lib.Int32
import Unameit.Lib.Intervals
import Unameit.Lib.Pool

/-!
# Range — the integers in use

For every owner and every integer attribute the database keeps a *slot* for each value in use, with
the objects that use it, and a *range object* with the values in use as a sequence of blocks.
Blocks are objects of one class, recycled through its free list, so that the block sequences of all
owners draw from one pool.  Slots and range objects are only ever found by their keys and are
modelled by them.
-/

namespace Unameit
namespace Range

open Function (update)

/-- Why a call does not return: a failed assertion, a failed check of a database operation, the
panic of `Add_Used`, or a search loop that does not come to an end. -/
inductive Stop
  | assertion
  | check
  | corrupted
  | endless
  deriving DecidableEq, Repr

/-! ## 32 bit integers -/

def int32Min : ℤ := -2 ^ 31

def int32Max : ℤ := 2 ^ 31 - 1

lemma int32_eq {x : ℤ} (hlow : int32Min ≤ x) (hhigh : x ≤ int32Max) : int32 x = x := by
  unfold int32Min at hlow
  unfold int32Max at hhigh
  exact int32_of_lt hlow (by omega)

/-! ## Blocks -/

/-- The class of range blocks: the bounds of its objects and its free list. -/
structure Store where
  rangeStart : DbObject → ℤ
  rangeEnd : DbObject → ℤ
  pool : Pool

namespace Store

def putStart (s : Store) (block : DbObject) (x : ℤ) : Store :=
  { s with rangeStart := update s.rangeStart block x }

def putEnd (s : Store) (block : DbObject) (x : ℤ) : Store :=
  { s with rangeEnd := update s.rangeEnd block x }

def appendFreeList (s : Store) (block : DbObject) : Store :=
  { s with pool := s.pool.give block }

def bounds (s : Store) (block : DbObject) : ClosedInterval :=
  (s.rangeStart block, s.rangeEnd block)

def intervals (s : Store) (col : List DbObject) : List ClosedInterval :=
  col.map s.bounds

end Store

def newBlock (s : Store) (col : List DbObject) (index : ℕ) (start stop : ℤ) :
    Except Stop (Store × List DbObject) :=
  if index ≤ col.length then
    let (block, pool) := s.pool.take
    .ok ((({ s with pool := pool }).putStart block start).putEnd block stop,
      col.insertIdx index block)
  else .error .assertion

def getBounds (s : Store) (col : List DbObject) (index : ℕ) : Except Stop (DbObject × ℤ × ℤ) :=
  match col[index]? with
  | none => .error .check
  | some block => .ok (block, s.rangeStart block, s.rangeEnd block)

def dropElement (col : List DbObject) (index : ℕ) : Except Stop (List DbObject) :=
  if index < col.length then .ok (col.eraseIdx index) else .error .check

/-! ## Adding a value -/

/-- The variables of the half interval search of `Add_Used`: the first and the last block of the
interval, with the bounds that are remembered for them. -/
structure Search where
  first : ℕ
  firstBlock : DbObject
  start : ℤ
  left : ℤ
  last : ℕ
  lastBlock : DbObject
  right : ℤ
  stop : ℤ

/-- Fetch the bounds of a block, unless the remembered ones are those of this block. -/
def refresh (s : Store) (col : List DbObject) (other : Bool) (index : ℕ)
    (remembered : DbObject × ℤ × ℤ) : Except Stop (DbObject × ℤ × ℤ) :=
  if other then getBounds s col index else .ok remembered

def addLoop (s : Store) (col : List DbObject) (ival : ℤ) :
    ℕ → Search → Except Stop (Store × List DbObject)
  | 0, _ => .error .endless
  | fuel + 1, v =>
    if ¬ ival < v.right ∨ ¬ ival > v.left then .error .assertion
    else if ival = int32 (v.right - 1) then do
      let (firstBlock, start, left) ←
        refresh s col (v.first ≠ v.last - 1) (v.last - 1) (v.firstBlock, v.start, v.left)
      if ival > int32 (left + 1) then
        return (s.putStart v.lastBlock ival, col)
      else do
        let col ← dropElement col (v.last - 1)
        return ((s.appendFreeList firstBlock).putStart v.lastBlock start, col)
    else if ival = int32 (v.left + 1) then do
      let (lastBlock, right, stop) ←
        refresh s col (v.last ≠ v.first + 1) (v.first + 1) (v.lastBlock, v.right, v.stop)
      if ival < int32 (right - 1) then
        return (s.putEnd v.firstBlock ival, col)
      else do
        let col ← dropElement col (v.first + 1)
        return ((s.appendFreeList lastBlock).putEnd v.firstBlock stop, col)
    else
      let mid := (v.first + v.last) / 2
      if mid = v.first then newBlock s col v.last ival ival
      else do
        let (midBlock, midStart, midEnd) ← getBounds s col mid
        -- Only the bound that faces `ival` is refreshed.
        if ival < midStart then
          addLoop s col ival fuel { v with last := mid, lastBlock := midBlock, right := midStart }
        else if ival > midEnd then
          addLoop s col ival fuel { v with first := mid, firstBlock := midBlock, left := midEnd }
        else .error .corrupted

def addUsed (s : Store) (blocks : Option (List DbObject)) (ival : ℤ) :
    Except Stop (Store × List DbObject) :=
  match blocks with
  | none => newBlock s [] 0 ival ival
  | some col => do
    if col = [] then .error .assertion
    else
      let last := col.length - 1
      let (lastBlock, right, stop) ← getBounds s col last
      if ival = int32 (stop + 1) then return (s.putEnd lastBlock ival, col)
      else if ival > stop then newBlock s col (last + 1) ival ival
      else do
        let (firstBlock, start, left) ← getBounds s col 0
        if ival = int32 (start - 1) then return (s.putStart firstBlock ival, col)
        else if ival < start then newBlock s col 0 ival ival
        else
          addLoop s col ival col.length
            { first := 0
              firstBlock := firstBlock
              start := start
              left := left
              last := last
              lastBlock := lastBlock
              right := right
              stop := stop }

/-! ## Removing a value -/

def delFromRange (s : Store) (col : List DbObject) (index : ℕ) (block : DbObject)
    (start stop ival : ℤ) : Except Stop (Store × Option (List DbObject)) :=
  if ¬ ival ≥ start ∨ ¬ ival ≤ stop then .error .assertion
  else if ival = start then
    if ival = stop then do
      let col ← dropElement col index
      return (s.appendFreeList block, if col.length = 0 then none else some col)
    else return (s.putStart block (int32 (start + 1)), some col)
  else
    let s := s.putEnd block (int32 (ival - 1))
    if ival < stop then do
      let (s, col) ← newBlock s col (index + 1) (int32 (ival + 1)) stop
      return (s, some col)
    else return (s, some col)

def delLoop (s : Store) (col : List DbObject) (ival : ℤ) :
    ℕ → ℕ → ℕ → Except Stop (Store × Option (List DbObject))
  | 0, _, _ => .error .endless
  | fuel + 1, first, last =>
    let mid := (first + last) / 2
    if ¬ mid > first then .error .assertion
    else do
      let (block, start, stop) ← getBounds s col mid
      if ival < start then delLoop s col ival fuel first mid
      else if ival > stop then delLoop s col ival fuel mid last
      else delFromRange s col mid block start stop ival

def delUsed (s : Store) (blocks : Option (List DbObject)) (ival : ℤ) :
    Except Stop (Store × Option (List DbObject)) :=
  match blocks with
  | none => .error .check
  | some col => do
    if col = [] then .error .assertion
    else
      let last := col.length - 1
      let (block, start, stop) ← getBounds s col last
      if ival ≥ start then delFromRange s col last block start stop ival
      else do
        let (block, start, stop) ← getBounds s col 0
        if ival ≤ stop then delFromRange s col 0 block start stop ival
        else delLoop s col ival col.length 0 last

/-! ## Entries -/

abbrev Key := DbObject × CString

/-- The range blocks, the block sequences of the range objects and the items of the slots. -/
structure State where
  store : Store
  used : Key → Option (List DbObject)
  slot : Key → ℤ → Option (List DbObject)

def udbAddRangeEntry (σ : State) (key : Key) (ival : ℤ) (object : DbObject) :
    Except Stop State :=
  match σ.slot key ival with
  | some items =>
    -- The items are a set.
    let items := if object ∈ items then items else items ++ [object]
    .ok { σ with
      slot := update σ.slot key (update (σ.slot key) ival (some items)) }
  | none => do
    let (store, col) ← addUsed σ.store (σ.used key) ival
    return {
      store := store
      used := update σ.used key (some col)
      slot := update σ.slot key (update (σ.slot key) ival (some [object])) }

def udbDeleteRangeEntry (σ : State) (key : Key) (ival : ℤ) (object : DbObject) :
    Except Stop State :=
  match σ.slot key ival with
  | none => .error .check
  | some items =>
    if object ∉ items then .error .check
    else if items.erase object = [] then do
      let (store, blocks) ← delUsed σ.store (σ.used key) ival
      return {
        store := store
        used := update σ.used key blocks
        slot := update σ.slot key (update (σ.slot key) ival none) }
    else
      .ok { σ with
        slot := update σ.slot key
          (update (σ.slot key) ival (some (items.erase object))) }

def State.empty : State where
  store :=
    { rangeStart := fun _ => 0
      rangeEnd := fun _ => 0
      pool := ⟨[], 0⟩ }
  used := fun _ => none
  slot := fun _ _ => none

end Range
end Unameit
