import Mathlib.Data.Char
import Mathlib.Data.List.Lex
import Mathlib.Data.List.Sort
import Mathlib.Data.Prod.Lex
import Mathlib.Tactic
import Unameit.Inet.Basic
import Unameit.Lib.Loops
import Unameit.Lib.Parents

/-!
# Regions — the regions whose data a host pulls

The backend reads the region tree of the database from a file and collects the regions whose hosts,
users or aliases go into a generated file: those from a region up to its cell, all regions of the
cell, or all regions of the organization of the cell.  The name of a region is the list of its
labels, with `[]` for the root `.`.
-/

namespace Unameit
namespace Pull

open List

open Relation

abbrev Name := List CString

/-- How a procedure can fail: it reads an array element that does not exist, or it loops for ever. -/
inductive Fault
  | noSuchElement
  | endless
  deriving DecidableEq

/-! ## Reading the region tree -/

/-- A line of the regions file.  The organization is given for cells only. -/
structure RegionLine where
  oid : CString
  region : Name
  parentOid : CString
  orgOid : Option CString

/-- The global arrays `ORG_OID`, `ORG_OID_2_CELLS`, `TREE` and `PARENT`. -/
@[ext]
structure Tables where
  orgOid : Name → Option CString
  orgOid2Cells : CString → List Name
  tree : Name → Option (List Name)
  parent : Name → Option Name

/-- `oid2region($region2parentoid($region))`; a later line overwrites an earlier one. -/
def parentRegion (lines : List RegionLine) (region : Name) : Option Name := do
  let line ← lines.reverse.find? (·.region = region)
  let up ← lines.reverse.find? (·.oid = line.parentOid)
  return up.region

def BreadthFirst (a b : Name) : Prop := toLex (a.length, a) ≤ toLex (b.length, b)

instance : DecidableRel BreadthFirst := fun a b =>
  inferInstanceAs (Decidable (toLex (a.length, a) ≤ toLex (b.length, b)))

def addRegion (lines : List RegionLine) (tb : Tables) (region : Name) : Except Fault Tables :=
  let tree := Function.update tb.tree region (some [])
  if region = [] then
    .ok { tb with tree, parent := Function.update tb.parent [] (some []) }
  else
    match parentRegion lines region with
    | none => .error .noSuchElement
    | some up =>
      .ok { tb with
        tree := Function.update tree up (some ((tree up).getD [] ++ [region]))
        parent := Function.update tb.parent region (some up) }

/-- The tables when all lines have been read and the tree is still to be built. -/
def readLines (lines : List RegionLine) : Tables where
  orgOid := fun r => lines.reverse.findSome? fun l => if l.region = r then l.orgOid else none
  orgOid2Cells := fun org => (lines.filter (·.orgOid = some org)).map (·.region)
  tree := fun _ => none
  parent := fun _ => none

def readRegionsFile (lines : List RegionLine) : Except Fault Tables :=
  ((lines.map (·.region)).dedup.insertionSort BreadthFirst).foldlM (addRegion lines)
    (readLines lines)

/-! ## Collecting regions -/

abbrev CellCache := Name → Option (Name × CString)

/-- The loops that follow `PARENT`: the regions before the one where they stop, and that one. -/
def goUp (tb : Tables) (stop : Name → Bool) : ℕ → Name → Except Fault (List Name × Name)
  | 0, _ => .error .endless
  | fuel + 1, current =>
    if stop current then .ok ([], current)
    else
      match tb.parent current with
      | none => .error .noSuchElement
      | some up => (goUp tb stop fuel up).map fun (l, top) => (current :: l, top)

/-- The cell of a region and its organization.  The cache entry is that of the cell. -/
def getCellAndOid (tb : Tables) (fuel : ℕ) (cache : CellCache) (region : Name) :
    Except Fault ((Name × CString) × CellCache) :=
  match cache region with
  | some v => .ok (v, cache)
  | none => do
    let (_, cell) ← goUp tb (fun r => (tb.orgOid r).isSome) fuel region
    match tb.orgOid cell with
    | none => .error .noSuchElement
    | some org => .ok ((cell, org), Function.update cache cell (some (cell, org)))

def Skipped (tb : Tables) (seen : List Name) (r : Name) : Prop := (tb.orgOid r).isSome ∨ r ∈ seen

instance (tb : Tables) (seen : List Name) : DecidablePred (Skipped tb seen) := fun _ =>
  inferInstanceAs (Decidable (_ ∨ _))

def sideRegions (tb : Tables) (seen : List Name) :
    ℕ → List Name → List Name → Except Fault (List Name)
  | 0, _, _ => .error .endless
  | _ + 1, [], result => .ok result
  | fuel + 1, region :: workingSet, result =>
    if Skipped tb seen region then sideRegions tb seen fuel workingSet result
    else
      match tb.tree region with
      | none => .error .noSuchElement
      | some subs => sideRegions tb seen fuel (workingSet ++ subs) (result ++ [region])

inductive UpType
  | all
  | cell
  | region (r : Name)

def getUpRegions (tb : Tables) (genFiles : CString → Name → Bool) (fuel : ℕ) (start : Name)
    (type : UpType) (pre : CString) : Except Fault (List Name) := do
  let result ← match type with
    | .region r => (goUp tb (· = r) fuel start).map (·.1)
    | .cell =>
      (goUp tb (fun r => (tb.orgOid r).isSome) fuel start).map fun (l, cell) => l ++ [cell]
    | .all => do
      let (l, cell) ← goUp tb (fun r => (tb.orgOid r).isSome) fuel start
      match tb.tree cell with
      | none => .error .noSuchElement
      | some subs => sideRegions tb (l ++ [cell]) fuel subs (l ++ [cell])
  return if pre = [] then result else result.filter (genFiles pre)

def getOrgRegions (tb : Tables) (genFiles : CString → Name → Bool) (fuel : ℕ) (cache : CellCache)
    (start : Name) (pre : CString) : Except Fault (List Name × CellCache) := do
  let ((cell, org), cache) ← getCellAndOid tb fuel cache start
  let result ← getUpRegions tb genFiles fuel start .all pre
  let result ← (tb.orgOid2Cells org).foldlM (fun result c =>
    if cell = c then .ok result
    else (getUpRegions tb genFiles fuel c .all pre).map (result ++ ·)) result
  return (result, cache)

/-! ## What has been read -/

namespace Tables

def Child (tb : Tables) (x y : Name) : Prop := tb.parent y = some x ∧ y ≠ []

/-- The way up from a region ends at its cell. -/
def above (tb : Tables) (r : Name) : Option Name :=
  if (tb.orgOid r).isSome then none else tb.parent r

end Tables

/-- The regions of the file form a tree, and a region has more labels than its parent. -/
structure WellFormed (lines : List RegionLine) : Prop where
  nodup : (lines.map (·.region)).Nodup
  parent : ∀ r ∈ lines.map (·.region), r ≠ [] →
    ∃ up ∈ lines.map (·.region), parentRegion lines r = some up ∧ up.length < r.length

structure Built (names : List Name) (tb : Tables) : Prop where
  parent_mem : ∀ {r up}, tb.parent r = some up → r ∈ names ∧ up ∈ names
  root : ∀ {up}, tb.parent [] = some up → up = []
  children : ∀ r ∈ names, ∃ subs, tb.tree r = some subs ∧ subs.Nodup ∧ ∀ y, y ∈ subs ↔ tb.Child r y
  cell_mem : ∀ {r}, (tb.orgOid r).isSome → r ∈ names
  cells : ∀ {r org}, r ∈ tb.orgOid2Cells org ↔ tb.orgOid r = some org
  cells_nodup : ∀ org, (tb.orgOid2Cells org).Nodup

def Tables.after (lines : List RegionLine) (tb : Tables) (done : List Name) : Tables where
  orgOid := tb.orgOid
  orgOid2Cells := tb.orgOid2Cells
  tree := fun x =>
    if x ∈ done then some (done.filter fun y => y ≠ [] ∧ parentRegion lines y = some x) else none
  parent := fun x => if x ∈ done then if x = [] then some [] else parentRegion lines x else none

variable {lines : List RegionLine} {r : Name} {path : List Name}

/-- A region is added when its parent is there and none of its children is. -/
theorem addRegion_after {tb : Tables} {done : List Name} (hr : r ∉ done)
    (hlow : ∀ y ∈ done, y ≠ [] → parentRegion lines y ≠ some r)
    (hup : r ≠ [] → ∃ up ∈ done, parentRegion lines r = some up) :
    addRegion lines (tb.after lines done) r = .ok (tb.after lines (done ++ [r])) := by
  by_cases hroot : r = []
  · subst hroot
    refine congrArg Except.ok (Tables.ext rfl rfl (funext fun x => ?_) (funext fun x => ?_))
    · by_cases hx : x = []
      · subst hx
        simpa [Tables.after] using hlow
      · simp [Tables.after, hx]
    · by_cases hx : x = []
      · subst hx
        simp [Tables.after]
      · simp [Tables.after, hx]
  · rcases hup hroot with ⟨up, hmem, hpar⟩
    have hne : up ≠ r := fun heq => hr (heq ▸ hmem)
    simp only [addRegion, if_neg hroot, hpar]
    refine congrArg Except.ok (Tables.ext rfl rfl (funext fun x => ?_) (funext fun x => ?_))
    · by_cases hxu : x = up
      · subst hxu
        simp [Tables.after, hmem, hne, hroot, hpar]
      · by_cases hx : x = r
        · subst hx
          simpa [Tables.after, hpar, hne, Ne.symm hne] using hlow
        · simp [Tables.after, hx, hxu, hpar, Ne.symm hxu]
    · by_cases hx : x = r
      · subst hx
        simp [Tables.after, hroot, hpar]
      · simp [Tables.after, hx]

lemma BreadthFirst.length_le {a b : Name} (h : BreadthFirst a b) : a.length ≤ b.length := by
  rcases Prod.Lex.le_iff.1 h with hlt | ⟨heq, -⟩
  · exact le_of_lt hlt
  · exact le_of_eq heq

lemma orgOid_eq_some_iff (hwf : WellFormed lines) {org : CString} :
    (readLines lines).orgOid r = some org ↔ ∃ l ∈ lines, l.orgOid = some org ∧ l.region = r := by
  constructor
  · intro h
    rcases exists_of_findSome?_eq_some h with ⟨l, hl, heq⟩
    split_ifs at heq with hr
    exact ⟨l, mem_reverse.1 hl, heq, hr⟩
  · rintro ⟨l, hl, horg, hr⟩
    have hsome : ((readLines lines).orgOid r).isSome := by
      rw [readLines, findSome?_isSome_iff]
      exact ⟨l, mem_reverse.2 hl, by simp [hr, horg]⟩
    rcases Option.isSome_iff_exists.1 hsome with ⟨org', h⟩
    rcases exists_of_findSome?_eq_some h with ⟨l', hl', heq⟩
    split_ifs at heq with hr'
    -- There is only one line for the region.
    obtain rfl := inj_on_of_nodup_map hwf.nodup (mem_reverse.1 hl') hl (hr'.trans hr.symm)
    rw [h, ← heq, horg]

lemma readRegionsFile_built (hwf : WellFormed lines) :
    ∃ tb, readRegionsFile lines = .ok tb ∧ Built (lines.map (·.region)) tb := by
  have htotal : Std.Total BreadthFirst := ⟨fun a b => le_total (toLex (a.length, a)) _⟩
  have htrans : IsTrans Name BreadthFirst := ⟨fun a b c => le_trans⟩
  have hperm := perm_insertionSort BreadthFirst (lines.map (·.region))
  have hsorted := pairwise_insertionSort BreadthFirst (lines.map (·.region))
  generalize hl : (lines.map (·.region)).insertionSort BreadthFirst = l at hperm hsorted
  have hnodup : l.Nodup := hperm.nodup_iff.2 hwf.nodup
  refine ⟨(readLines lines).after lines l, ?_, ?_⟩
  · rw [readRegionsFile, hwf.nodup.dedup, hl]
    refine foldlM_eq_after (addRegion lines) l ((readLines lines).after lines) fun done r rest hsplit => ?_
    subst hsplit
    rw [pairwise_append, pairwise_cons] at hsorted
    have hmem : r ∈ lines.map (·.region) := hperm.mem_iff.1 (by simp)
    refine addRegion_after ?_ ?_ ?_
    · exact fun hr => (nodup_append.1 hnodup).2.2 r hr r mem_cons_self rfl
    · intro y hy hne hpar
      have hle := (hsorted.2.2 y hy r mem_cons_self).length_le
      rcases hwf.parent y (hperm.mem_iff.1 (mem_append_left _ hy)) hne with ⟨up, -, hup, hlt⟩
      rw [hpar] at hup
      cases hup
      omega
    · intro hne
      rcases hwf.parent r hmem hne with ⟨up, hup, hpar, hlt⟩
      refine ⟨up, ?_, hpar⟩
      rcases mem_append.1 (hperm.mem_iff.2 hup) with hdone | hrest
      · exact hdone
      · rcases mem_cons.1 hrest with rfl | hrest
        · omega
        · have := (hsorted.2.1.1 up hrest).length_le
          omega
  · have hparent : ∀ {r up}, (if r ∈ l then if r = [] then some [] else parentRegion lines r
        else none) = some up → r ∈ lines.map (·.region) ∧ up ∈ lines.map (·.region) := by
      intro r up h
      split_ifs at h with hr hroot
      · cases h
        exact ⟨hperm.mem_iff.1 hr, hperm.mem_iff.1 (hroot ▸ hr)⟩
      · rcases hwf.parent r (hperm.mem_iff.1 hr) hroot with ⟨up', hup, hpar, -⟩
        rw [h] at hpar
        cases hpar
        exact ⟨hperm.mem_iff.1 hr, hup⟩
    refine ⟨hparent, ?_, ?_, ?_, ?_, ?_⟩
    · intro up hup
      simp only [Tables.after, if_true] at hup
      split_ifs at hup
      exact (Option.some.inj hup).symm
    · intro r hr
      refine ⟨_, if_pos (hperm.mem_iff.2 hr), hnodup.filter _, fun y => ?_⟩
      by_cases hroot : y = []
      · simp [Tables.Child, hroot]
      · by_cases hy : y ∈ l <;> simp [Tables.Child, Tables.after, hroot, hy]
    · intro r hr
      rcases Option.isSome_iff_exists.1 hr with ⟨org, horg⟩
      rcases (orgOid_eq_some_iff hwf).1 horg with ⟨line, hline, -, rfl⟩
      exact mem_map_of_mem hline
    · intro r org
      refine Iff.trans ?_ (orgOid_eq_some_iff hwf).symm
      simp [Tables.after, readLines, and_assoc]
    · intro org
      exact hwf.nodup.sublist (filter_sublist.map _)

/-! ## The walk from the cell -/

def Onward (tb : Tables) (path : List Name) (x y : Name) : Prop :=
  tb.Child x y ∧ ¬ Skipped tb path y

def kept (tb : Tables) (path popped : List Name) : List Name :=
  popped.filter fun r => ¬ Skipped tb path r

section Walk

variable {names : List Name} {tb : Tables} {cell : Name}

lemma length_le_of_nodup {l : List Name} (hnodup : l.Nodup) (hsub : ∀ r ∈ l, r ∈ names) :
    l.length ≤ names.length :=
  (subperm_of_subset hnodup hsub).length_le

/-- The regions taken from the working set or still on it are the children of the cell and of the
regions that were kept; none of them occurs twice. -/
theorem sideRegions_spec (hb : Built names tb) (hcell : (tb.orgOid cell).isSome)
    (path acc : List Name) (fuel : ℕ) (popped work : List Name) (hnodup : (popped ++ work).Nodup)
    (hmem : ∀ y, y ∈ popped ++ work ↔
      ∃ up, tb.Child up y ∧ (up = cell ∨ up ∈ kept tb path popped))
    (hreach : ∀ y ∈ kept tb path popped, TransGen (Onward tb path) cell y)
    (hfuel : names.length < popped.length + fuel) :
    ∃ l, sideRegions tb path fuel work (acc ++ kept tb path popped) = .ok (acc ++ l) ∧ l.Nodup ∧
      ∀ y, y ∈ l ↔ TransGen (Onward tb path) cell y := by
  have hnames : ∀ y ∈ popped ++ work, y ∈ names := by
    intro y hy
    rcases (hmem y).1 hy with ⟨up, hchild, -⟩
    exact (hb.parent_mem hchild.1).1
  induction fuel generalizing popped work with
  | zero =>
    have := length_le_of_nodup hnodup hnames
    rw [length_append] at this
    omega
  | succ fuel ih =>
    cases work with
    | nil =>
      rw [append_nil] at hnodup hmem
      refine ⟨_, rfl, hnodup.filter _, fun y => ⟨hreach y, fun hy => ?_⟩⟩
      induction hy with
      | single hstep =>
        exact mem_filter.2 ⟨(hmem _).2 ⟨_, hstep.1, .inl rfl⟩, decide_eq_true hstep.2⟩
      | tail _ hstep ih =>
        exact mem_filter.2 ⟨(hmem _).2 ⟨_, hstep.1, .inr ih⟩, decide_eq_true hstep.2⟩
    | cons r work =>
      have hr := (hmem r).1 (by simp)
      have hrnames := hnames r (by simp)
      have hlen : names.length < (popped ++ [r]).length + fuel := by
        rw [length_append, length_singleton]
        omega
      rw [append_cons] at hnodup hmem hnames
      rw [sideRegions]
      by_cases hskip : Skipped tb path r
      · have hkept : kept tb path (popped ++ [r]) = kept tb path popped := by simp [kept, hskip]
        rw [if_pos hskip, ← hkept]
        exact ih _ _ hnodup (hkept ▸ hmem) (hkept ▸ hreach) hlen hnames
      · have hkept : kept tb path (popped ++ [r]) = kept tb path popped ++ [r] := by
          simp [kept, hskip]
        rcases hb.children r hrnames with ⟨subs, htree, hsubs, hchild⟩
        simp only [if_neg hskip, htree]
        rw [append_assoc, ← hkept]
        have hmem' : ∀ y, y ∈ popped ++ [r] ++ (work ++ subs) ↔
            ∃ up, tb.Child up y ∧ (up = cell ∨ up ∈ kept tb path (popped ++ [r])) := by
          intro y
          rw [← append_assoc, mem_append, hmem, hchild, hkept]
          simp only [mem_append, mem_singleton, ← or_assoc, and_or_left (c := _ = r),
            exists_or, exists_eq_right]
        refine ih _ _ ?_ hmem' ?_ hlen fun y hy => ?_
        · -- The children of `r` are new, since `r` is neither the cell nor was it kept before.
          rw [← append_assoc]
          refine hnodup.append hsubs fun y hy hsub => ?_
          rcases (hmem y).1 hy with ⟨up, hup, hold⟩
          obtain rfl : up = r := Option.some.inj (hup.1.symm.trans ((hchild y).1 hsub).1)
          rcases hold with rfl | hold
          · exact hskip (.inl hcell)
          · rw [append_assoc] at hnodup
            exact (nodup_append.1 hnodup).2.2 _ (mem_of_mem_filter hold) _ (by simp) rfl
        · intro y hy
          rw [hkept, mem_append, mem_singleton] at hy
          rcases hy with hy | rfl
          · exact hreach y hy
          · rcases hr with ⟨up, hup, rfl | hold⟩
            · exact .single ⟨hup, hskip⟩
            · exact .tail (hreach up hold) ⟨hup, hskip⟩
        · rcases (hmem' y).1 hy with ⟨up, hup, -⟩
          exact (hb.parent_mem hup.1).1

/-! ## The way up -/

variable {start : Name} {l : List Name} {fuel : ℕ}

lemma above_of_isSome (hcell : (tb.orgOid cell).isSome) : tb.above cell = none := if_pos hcell

lemma above_eq_some_iff {up : Name} :
    tb.above r = some up ↔ tb.orgOid r = none ∧ tb.parent r = some up := by
  cases horg : tb.orgOid r <;> simp [Tables.above, horg]

lemma goUp_cell (hpath : Above tb.above start l) (hcell : (tb.orgOid cell).isSome)
    (hmem : cell ∈ start :: l) (hfuel : l.length < fuel) :
    ∃ l', start :: l = l' ++ [cell] ∧
      goUp tb (fun r => (tb.orgOid r).isSome) fuel start = .ok (l', cell) := by
  induction hpath generalizing fuel with
  | top _ =>
    obtain rfl := mem_singleton.1 hmem
    cases fuel with
    | zero => omega
    | succ fuel => exact ⟨[], rfl, by rw [goUp, if_pos hcell]⟩
  | @step r up l habove _ ih =>
    rcases above_eq_some_iff.1 habove with ⟨horg, hparent⟩
    have hne : cell ≠ r := by
      rintro rfl
      simp [horg] at hcell
    cases fuel with
    | zero => omega
    | succ fuel =>
      rcases ih ((mem_cons.1 hmem).resolve_left hne) (Nat.lt_of_succ_lt_succ hfuel) with
        ⟨l', hl, hgo⟩
      refine ⟨r :: l', by rw [hl, cons_append], ?_⟩
      simp [goUp, horg, hparent, hgo, Except.map]

section

variable (hb : Built names tb) (hpath : Above tb.above start l) (hcell : (tb.orgOid cell).isSome)
  (hmem : cell ∈ start :: l)

include hb hpath hcell hmem

lemma path_length_le : (start :: l).length ≤ names.length := by
  refine length_le_of_nodup hpath.nodup fun r hr => ?_
  have hup := (hpath.mem_iff_upTo.1 hr).to_top (above_of_isSome hcell) (hpath.mem_iff_upTo.1 hmem)
  rcases UpTo.iff_head.1 hup with rfl | ⟨up, hstep, -⟩
  · exact hb.cell_mem hcell
  · exact (hb.parent_mem (above_eq_some_iff.1 hstep).2).1

lemma getUpRegions_all (genFiles : CString → Name → Bool) (hfuel : names.length < fuel) :
    ∃ side, getUpRegions tb genFiles fuel start .all [] = .ok (start :: l ++ side) ∧
      side.Nodup ∧ ∀ y, y ∈ side ↔ TransGen (Onward tb (start :: l)) cell y := by
  have hlen := path_length_le hb hpath hcell hmem
  rcases goUp_cell hpath hcell hmem (lt_trans hlen hfuel) with ⟨l', hl, hgo⟩
  rcases hb.children cell (hb.cell_mem hcell) with ⟨subs, htree, hsubs, hchild⟩
  rcases sideRegions_spec hb hcell (start :: l) (start :: l) fuel [] subs hsubs
    (by simp [kept, hchild]) (by simp [kept]) (by simpa using hfuel) with ⟨side, hside, h⟩
  refine ⟨side, ?_, h⟩
  simp only [kept, filter_nil, append_nil] at hside
  simp [getUpRegions, hgo, htree, ← hl, hside, bind, Except.bind, pure, Except.pure]

end

/-! ## Which regions are found -/

structure Lists (path : List Name) (P : Name → Prop) (l : List Name) : Prop where
  path_first : path <+: l
  nodup : l.Nodup
  mem_iff : ∀ r, r ∈ l ↔ P r

/-- Nothing but cells branches off the way up below the cell. -/
def Narrow (tb : Tables) (path : List Name) (cell : Name) : Prop :=
  ∀ x ∈ path, x ≠ cell → ∀ y, tb.Child x y → Skipped tb path y

lemma Onward.above {x y : Name} (h : Onward tb path x y) : tb.above y = some x := by
  refine above_eq_some_iff.2 ⟨?_, h.1.1⟩
  simpa using (not_or.1 h.2).1

lemma upTo_of_onward (h : TransGen (Onward tb path) cell r) : UpTo tb.above r cell := by
  induction h with
  | single hstep => exact .head hstep.above .refl
  | tail _ hstep ih => exact .head hstep.above ih

lemma getUpRegions_lists_iff (hb : Built names tb) (hpath : Above tb.above start l)
    (hcell : (tb.orgOid cell).isSome) (hmem : cell ∈ start :: l)
    (genFiles : CString → Name → Bool) (hfuel : names.length < fuel) :
    (∃ found, getUpRegions tb genFiles fuel start .all [] = .ok found ∧
      Lists (start :: l) (fun r => UpTo tb.above r cell) found) ↔ Narrow tb (start :: l) cell := by
  have htop := above_of_isSome hcell
  have hbelow : ∀ r ∈ start :: l, UpTo tb.above r cell := fun r hr =>
    (hpath.mem_iff_upTo.1 hr).to_top htop (hpath.mem_iff_upTo.1 hmem)
  rcases getUpRegions_all hb hpath hcell hmem genFiles hfuel with ⟨side, hget, hnodup, hside⟩
  rw [hget]
  constructor
  · rintro ⟨_, ⟨rfl⟩, hlists⟩ x hx hne y hchild
    by_contra hskip
    -- `y` belongs to the cell but is found neither on the way up nor by the walk.
    have hstep : Onward tb (start :: l) x y := ⟨hchild, hskip⟩
    rcases mem_append.1 ((hlists.mem_iff y).2 (.head hstep.above (hbelow x hx))) with hon | hon
    · exact hskip (.inr hon)
    · rcases TransGen.tail'_iff.1 ((hside y).1 hon) with ⟨z, hz, hstep⟩
      obtain rfl : z = x := Option.some.inj (hstep.1.1.symm.trans hchild.1)
      rcases ReflTransGen.cases_tail_iff _ _ _ |>.1 hz with rfl | ⟨w, -, hw⟩
      · exact hne rfl
      · exact hw.2 (.inr hx)
  · intro hnarrow
    refine ⟨_, rfl, prefix_append .., ?_, fun r => ⟨fun hr => ?_, fun hr => ?_⟩⟩
    · refine hpath.nodup.append hnodup fun r hr hon => ?_
      rcases TransGen.tail'_iff.1 ((hside r).1 hon) with ⟨z, -, hstep⟩
      exact hstep.2 (.inr hr)
    · rcases mem_append.1 hr with hr | hr
      · exact hbelow r hr
      · exact upTo_of_onward ((hside r).1 hr)
    · -- By induction on the way from the region up to the cell.
      induction hr using ReflTransGen.head_induction_on with
      | refl => exact mem_append_left _ hmem
      | @head r up habove _ ih =>
        rcases above_eq_some_iff.1 habove with ⟨horg, hparent⟩
        by_cases hroot : r = []
        · subst hroot
          exact hb.root hparent ▸ ih
        by_cases hr : r ∈ start :: l
        · exact mem_append_left _ hr
        have hstep : Onward tb (start :: l) up r := ⟨⟨hparent, hroot⟩, by simp [Skipped, horg, hr]⟩
        refine mem_append_right _ ((hside r).2 ?_)
        rcases mem_append.1 ih with hup | hup
        · by_cases hne : up = cell
          · exact .single (hne ▸ hstep)
          · exact absurd (hnarrow up hup hne r hstep.1) hstep.2
        · exact .tail ((hside up).1 hup) hstep

/-! ## The regions of an organization -/

/-- `v` is the cell of `r` and its organization. -/
def CellOf (tb : Tables) (r : Name) (v : Name × CString) : Prop :=
  UpTo tb.above r v.1 ∧ tb.orgOid v.1 = some v.2

lemma CellOf.unique {v w : Name × CString} (hv : CellOf tb r v) (hw : CellOf tb r w) : v = w := by
  have hcell : v.1 = w.1 := UpTo.top_unique (above_of_isSome (by simp [hv.2]))
    (above_of_isSome (by simp [hw.2])) hv.1 hw.1
  exact Prod.ext hcell (Option.some.inj (hv.2.symm.trans (hcell ▸ hw.2)))

def CacheRight (tb : Tables) (cache : CellCache) : Prop := ∀ r v, cache r = some v → CellOf tb r v

variable {org : CString} {cache : CellCache}

lemma getCellAndOid_spec (hpath : Above tb.above start l) (hmem : cell ∈ start :: l)
    (horg : tb.orgOid cell = some org) (hcache : CacheRight tb cache) (hfuel : l.length < fuel) :
    ∃ cache', getCellAndOid tb fuel cache start = .ok ((cell, org), cache') ∧
      CacheRight tb cache' := by
  have hcell : CellOf tb start (cell, org) := ⟨hpath.mem_iff_upTo.1 hmem, horg⟩
  rw [getCellAndOid]
  cases hhit : cache start with
  | some v => exact ⟨cache, by rw [(hcache start v hhit).unique hcell], hcache⟩
  | none =>
    rcases goUp_cell hpath (by simp [horg]) hmem hfuel with ⟨l', -, hgo⟩
    refine ⟨Function.update cache cell (some (cell, org)), ?_, fun r v hv => ?_⟩
    · simp [hgo, horg, bind, Except.bind]
    · by_cases hr : r = cell
      · subst hr
        rw [Function.update_self] at hv
        exact Option.some.inj hv ▸ ⟨.refl, horg⟩
      · rw [Function.update_of_ne hr] at hv
        exact hcache r v hv

lemma getOrgRegions_eq (hb : Built names tb) (hpath : Above tb.above start l)
    (hmem : cell ∈ start :: l) (horg : tb.orgOid cell = some org) (hcache : CacheRight tb cache)
    (genFiles : CString → Name → Bool) (hfuel : names.length < fuel) {found : List Name}
    (hfound : getUpRegions tb genFiles fuel start .all [] = .ok found) :
    ∃ (rest : Name → List Name) (cache' : CellCache), CacheRight tb cache' ∧
      (∀ c ∈ tb.orgOid2Cells org, Lists [c] (fun r => UpTo tb.above r c) (rest c)) ∧
      getOrgRegions tb genFiles fuel cache start [] =
        .ok (found ++ ((tb.orgOid2Cells org).filter (· ≠ cell)).flatMap rest, cache') := by
  -- Every other cell is its own start, so the walk from it finds everything.
  have hothers : ∀ c ∈ tb.orgOid2Cells org, ∃ l,
      getUpRegions tb genFiles fuel c .all [] = .ok l ∧ Lists [c] (fun r => UpTo tb.above r c) l := by
    intro c hc
    have hsome : (tb.orgOid c).isSome := by simp [hb.cells.1 hc]
    refine (getUpRegions_lists_iff hb (.top (above_of_isSome hsome)) hsome (by simp) genFiles
      hfuel).2 fun x hx hne => absurd (mem_singleton.1 hx) hne
  choose! rest hrest using hothers
  have hlen := path_length_le hb hpath (by simp [horg]) hmem
  rcases getCellAndOid_spec hpath hmem horg hcache (lt_trans hlen hfuel) with
    ⟨cache', hcell, hcache'⟩
  refine ⟨rest, cache', hcache', fun c hc => (hrest c hc).2, ?_⟩
  have hloop := foldlM_eq_after (fun result c => if cell = c then Except.ok result
    else (getUpRegions tb genFiles fuel c .all []).map (result ++ ·)) (tb.orgOid2Cells org)
    (fun done => found ++ (done.filter (· ≠ cell)).flatMap rest) fun done c more hsplit => by
      by_cases hc : cell = c
      · simp [hc]
      · have hget := (hrest c (by rw [hsplit]; simp)).1
        simp [hc, Ne.symm hc, hget, Except.map]
  simp only [filter_nil, flatMap_nil, append_nil] at hloop
  simp [getOrgRegions, hcell, hfound, hloop, bind, Except.bind, pure, Except.pure]

end Walk

/-- All regions of the cell and of the organization are found if and only if nothing but cells
branches off the way up below the cell. -/
theorem getOrgRegions_lists_iff {lines : List RegionLine} (hwf : WellFormed lines) {tb : Tables}
    (hread : readRegionsFile lines = .ok tb) {start cell : Name} {l : List Name} {org : CString}
    (hpath : Above tb.above start l) (hmem : cell ∈ start :: l) (horg : tb.orgOid cell = some org)
    {cache : CellCache} (hcache : CacheRight tb cache) (genFiles : CString → Name → Bool) {fuel : ℕ}
    (hfuel : lines.length < fuel) :
    ((∃ found, getUpRegions tb genFiles fuel start .all [] = .ok found ∧
        Lists (start :: l) (fun r => UpTo tb.above r cell) found) ∧
      ∃ found cache', getOrgRegions tb genFiles fuel cache start [] = .ok (found, cache') ∧
        Lists (start :: l) (fun r => ∃ c, UpTo tb.above r c ∧ tb.orgOid c = some org) found) ↔
    Narrow tb (start :: l) cell := by
  obtain ⟨tb', hread', hb⟩ := readRegionsFile_built hwf
  obtain rfl : tb' = tb := Except.ok.inj (hread'.symm.trans hread)
  have hlen : (lines.map (·.region)).length < fuel := by simpa using hfuel
  have hiff := getUpRegions_lists_iff hb hpath (by simp [horg]) hmem genFiles hlen
  refine ⟨fun h => hiff.1 h.1, fun hnarrow => ⟨hiff.2 hnarrow, ?_⟩⟩
  rcases hiff.2 hnarrow with ⟨found, hfound, hlists⟩
  rcases getOrgRegions_eq hb hpath hmem horg hcache genFiles hlen hfound with
    ⟨rest, cache', -, hrest, hget⟩
  refine ⟨_, cache', hget, hlists.path_first.trans (prefix_append ..), ?_, fun r => ?_⟩
  · -- No region is in two cells.
    have hcell : ∀ {c r}, c ∈ tb'.orgOid2Cells org → r ∈ rest c → CellOf tb' r (c, org) :=
      fun hc hr => ⟨((hrest _ hc).mem_iff _).1 hr, hb.cells.1 hc⟩
    rw [nodup_append, nodup_flatMap]
    refine ⟨hlists.nodup, ⟨fun c hc => (hrest c (mem_of_mem_filter hc)).nodup, ?_⟩, ?_⟩
    · refine ((hb.cells_nodup org).filter _).imp_of_mem fun hc hd hne r hr hr' => hne ?_
      exact congrArg Prod.fst
        ((hcell (mem_of_mem_filter hc) hr).unique (hcell (mem_of_mem_filter hd) hr'))
    · rintro r hr _ hr' rfl
      rcases mem_flatMap.1 hr' with ⟨c, hc, hrc⟩
      rcases mem_filter.1 hc with ⟨hc, hne⟩
      refine of_decide_eq_true hne (congrArg Prod.fst ((hcell hc hrc).unique (w := (cell, org)) ?_))
      exact ⟨(hlists.mem_iff r).1 hr, horg⟩
  · rw [mem_append, hlists.mem_iff, mem_flatMap]
    constructor
    · rintro (hr | ⟨c, hc, hr⟩)
      · exact ⟨cell, hr, horg⟩
      · have hc := mem_of_mem_filter hc
        exact ⟨c, ((hrest c hc).mem_iff r).1 hr, hb.cells.1 hc⟩
    · rintro ⟨c, hr, hc⟩
      have hc := hb.cells.2 hc
      by_cases heq : c = cell
      · exact .inl (heq ▸ hr)
      · exact .inr ⟨c, mem_filter.2 ⟨hc, decide_eq_true heq⟩, ((hrest c hc).mem_iff r).2 hr⟩

def deepLines : List RegionLine :=
  [⟨['1'], [], ['1'], some ['o']⟩, ⟨['2'], [['a']], ['1'], none⟩,
    ⟨['3'], [['b'], ['a']], ['2'], none⟩]

def deepTables : Tables := (readRegionsFile deepLines).toOption.getD (readLines [])

/-- A second cell `c` of the organization. -/
def twoCells : List RegionLine := deepLines ++ [⟨['4'], [['c']], ['1'], some ['o']⟩]

def twoCellsTables : Tables := (readRegionsFile twoCells).toOption.getD (readLines [])

/-- From the lowest region `b.a`, all regions of the two cells are found. -/
theorem getOrgRegions_lists_deep :
    ∃ found cache, getOrgRegions twoCellsTables (fun _ _ => true) 5 (fun _ => none)
        [['b'], ['a']] [] = .ok (found, cache) ∧
      Lists [[['b'], ['a']], [['a']], []] (fun r => ∃ c, UpTo twoCellsTables.above r c ∧
        twoCellsTables.orgOid c = some ['o']) found := by
  have hwf : WellFormed twoCells := ⟨by decide, by decide⟩
  have hnarrow : Narrow twoCellsTables [[['b'], ['a']], [['a']], []] [] := by
    obtain ⟨tb, hread, hb⟩ := readRegionsFile_built hwf
    obtain rfl : twoCellsTables = tb := Except.ok.inj hread
    intro x hx hne y hchild
    -- the regions below `b.a` and `a`
    have hsubs : (twoCellsTables.tree x).all (∀ y ∈ ·, y ∈ [[['b'], ['a']], [['a']], []]) := by
      rcases (by simpa [hne] using hx : x = [['b'], ['a']] ∨ x = [['a']]) with rfl | rfl <;> rfl
    obtain ⟨subs, htree, -, hiff⟩ := hb.children x
      ((by decide : [[['b'], ['a']], [['a']], []] ⊆ twoCells.map (·.region)) hx)
    rw [htree] at hsubs
    exact .inr (of_decide_eq_true hsubs y ((hiff y).2 hchild))
  exact ((getOrgRegions_lists_iff hwf rfl
    (.step rfl (.step rfl (.top rfl))) (by decide) rfl (by simp [CacheRight]) _ (by decide)).2
    hnarrow).2

/-- From `a`, the region below it is lost. -/
theorem getOrgRegions_loses_region :
    getUpRegions deepTables (fun _ _ => true) 4 [['a']] .all [] = .ok [[['a']], []] ∧
      (getOrgRegions deepTables (fun _ _ => true) 4 (fun _ => none) [['a']] []).map (·.1) =
        .ok [[['a']], []] ∧
      UpTo deepTables.above [['b'], ['a']] [] :=
  ⟨rfl, rfl, .head rfl (.head rfl .refl)⟩

end Pull
end Unameit
