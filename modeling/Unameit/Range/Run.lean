import Mathlib.Logic.Relation
import Unameit.Range.Used

/-!
# Range.Run — the ranges of every owner, over whole runs

In every state that is reached by adding and deleting entries, the blocks of each range object are
the canonical intervals of the values that have a slot, and no call ends in a failed assertion or
in the panic of `Add_Used` (`usedRanges_of_run`).  One call changes the slots and blocks of one key;
`Kept.update` says that this keeps the invariant `Kept` for all keys, whose blocks come from one
free list.
-/

namespace Unameit
namespace Range

open ClosedInterval (Covers Canonical)
open State

/-! ## Runs -/

inductive Op
  | add (key : Key) (ival : ℤ) (object : DbObject)
  | delete (key : Key) (ival : ℤ) (object : DbObject)

def step (σ : State) : Op → Except Stop State
  | .add key ival object => udbAddRangeEntry σ key ival object
  | .delete key ival object => udbDeleteRangeEntry σ key ival object

/-- The value lies strictly between the least and the greatest 32 bit integer, and what is deleted
is there. -/
def Op.Proper (σ : State) : Op → Prop
  | .add _ ival _ => int32Min < ival ∧ ival < int32Max
  | .delete key ival object => (int32Min < ival ∧ ival < int32Max) ∧
      ∃ items, σ.slot key ival = some items ∧ object ∈ items

abbrev Run : State → State → Prop :=
  Relation.ReflTransGen fun σ σ' => ∃ op : Op, op.Proper σ ∧ step σ op = .ok σ'

def State.blocks (σ : State) (key : Key) : List DbObject :=
  (σ.used key).getD []

def State.Held (σ : State) (key : Key) (i : ℤ) : Prop :=
  ∃ items, σ.slot key i = some items ∧ items ≠ []

/-! ## The invariant -/

/-- Every block belongs to one range object or to the free list, and the blocks of each range object
are the canonical intervals of the values with a slot. -/
structure Kept (σ : State) : Prop where
  pool : σ.store.pool.Sound fun b => ∃ key, b ∈ σ.blocks key
  nodup : ∀ key, (σ.blocks key).Nodup
  owned : ∀ {key key' b}, b ∈ σ.blocks key → b ∈ σ.blocks key' → key = key'
  canonical : ∀ key, Canonical (σ.store.intervals (σ.blocks key))
  covers : ∀ key i, Covers (σ.store.intervals (σ.blocks key)) i ↔ σ.slot key i ≠ none
  some_block : ∀ key, σ.used key ≠ some []
  some_item : ∀ key i, σ.slot key i ≠ some []
  bounded : ∀ {key i}, σ.slot key i ≠ none → int32Min < i ∧ i < int32Max

namespace Kept

variable {σ : State} {key : Key} {ival : ℤ} {object : DbObject}

lemma empty : Kept State.empty :=
  { pool := Pool.Sound.empty.congr fun b => by simp [State.blocks, State.empty]
    nodup := fun _ => List.nodup_nil
    owned := fun hb => by cases hb
    canonical := fun _ => Canonical.nil
    covers := fun _ _ => by
      simp [State.blocks, State.empty, Store.intervals]
    some_block := fun _ => by simp [State.empty]
    some_item := fun _ _ => by simp [State.empty]
    bounded := fun h => absurd rfl h }

lemma held_iff (h : Kept σ) (key : Key) (i : ℤ) : σ.Held key i ↔ σ.slot key i ≠ none := by
  constructor
  · rintro ⟨items, hitems, _⟩
    rw [hitems]
    exact Option.some_ne_none items
  · intro hne
    rcases Option.ne_none_iff_exists'.1 hne with ⟨items, hitems⟩
    refine ⟨items, hitems, ?_⟩
    rintro rfl
    exact h.some_item key i hitems

def others (σ : State) (key : Key) (b : DbObject) : Prop :=
  ∃ key', key' ≠ key ∧ b ∈ σ.blocks key'

lemma ready (h : Kept σ) (key : Key) : Ready σ.store (others σ key) (σ.blocks key) := by
  refine
    { stock :=
        { pool := h.pool.congr fun b => ?_
          nodup := h.nodup key
          foreign := fun b hb ⟨key', hne, hb'⟩ => hne (h.owned hb' hb) }
      canonical := h.canonical key
      fits := fun b hb => ?_ }
  · constructor
    · rintro (hb | ⟨key', _, hb⟩)
      · exact ⟨key, hb⟩
      · exact ⟨key', hb⟩
    · rintro ⟨key', hb⟩
      by_cases hkey : key' = key
      · exact .inl (hkey ▸ hb)
      · exact .inr ⟨key', hkey, hb⟩
  · -- The bounds of a block are themselves values in use.
    have hmem : σ.store.bounds b ∈ σ.store.intervals (σ.blocks key) := List.mem_map_of_mem hb
    have hle := (h.canonical key).proper _ hmem
    have hstart := (h.covers key _).1 ⟨_, hmem, le_refl _, hle⟩
    have hstop := (h.covers key _).1 ⟨_, hmem, hle, le_refl _⟩
    exact ⟨(h.bounded hstart).1, (h.bounded hstop).2⟩

def put (σ : State) (key : Key) (store : Store) (blocks : Option (List DbObject))
    (slot : ℤ → Option (List DbObject)) : State where
  store := store
  used := Function.update σ.used key blocks
  slot := Function.update σ.slot key slot

lemma blocks_put_self (σ : State) (key : Key) (store : Store)
    (blocks : Option (List DbObject)) (slot : ℤ → Option (List DbObject)) :
    (put σ key store blocks slot).blocks key = blocks.getD [] := by
  simp [put, State.blocks]

lemma blocks_put_of_ne {key' : Key} (hne : key' ≠ key) (store : Store)
    (blocks : Option (List DbObject)) (slot : ℤ → Option (List DbObject)) :
    (put σ key store blocks slot).blocks key' = σ.blocks key' := by
  simp [put, State.blocks, hne]

variable {store : Store} {blocks x : Option (List DbObject)} {P : ℤ → Prop} {items : List DbObject}

/-- Changing the blocks of one key to those of its new slots keeps the invariant. -/
theorem update (h : Kept σ) {slot : ℤ → Option (List DbObject)}
    (hres : Result σ.store store (others σ key) (blocks.getD []) P) (hsome : blocks ≠ some [])
    (hslot : ∀ i, P i ↔ slot i ≠ none) (hitems : ∀ i, slot i ≠ some [])
    (hbound : ∀ i, slot i ≠ none → int32Min < i ∧ i < int32Max) :
    Kept (put σ key store blocks slot) := by
  have hkept : ∀ {key'}, key' ≠ key → store.intervals (σ.blocks key') =
      σ.store.intervals (σ.blocks key') := fun hne =>
    intervals_congr fun b hb => hres.frame ⟨_, hne, hb⟩
  have hforeign : ∀ {key' b}, key' ≠ key → b ∈ blocks.getD [] → b ∉ σ.blocks key' :=
    fun hne hb hb' => hres.stock.foreign _ hb ⟨_, hne, hb'⟩
  refine
    { pool := hres.stock.pool.congr fun b => ?_
      nodup := fun key' => ?_
      owned := fun {key' key'' b} hb hb' => ?_
      canonical := fun key' => ?_
      covers := fun key' i => ?_
      some_block := fun key' => ?_
      some_item := fun key' i => ?_
      bounded := fun {key' i} hne => ?_ }
  · constructor
    · rintro ⟨key', hb⟩
      by_cases hkey : key' = key
      · subst hkey
        exact .inl (blocks_put_self σ key' store blocks slot ▸ hb)
      · exact .inr ⟨key', hkey, blocks_put_of_ne hkey store blocks slot ▸ hb⟩
    · rintro (hb | ⟨key', hne, hb⟩)
      · exact ⟨key, (blocks_put_self σ key store blocks slot).symm ▸ hb⟩
      · exact ⟨key', (blocks_put_of_ne hne store blocks slot).symm ▸ hb⟩
  · by_cases hkey : key' = key
    · subst hkey
      rw [blocks_put_self]
      exact hres.stock.nodup
    · rw [blocks_put_of_ne hkey]
      exact h.nodup key'
  · -- A block of the changed key is not a block of any other one.
    by_cases hkey : key' = key
    · by_cases hkey' : key'' = key
      · exact hkey.trans hkey'.symm
      · rw [blocks_put_of_ne hkey'] at hb'
        rw [hkey, blocks_put_self] at hb
        exact absurd hb' (hforeign hkey' hb)
    · rw [blocks_put_of_ne hkey] at hb
      by_cases hkey' : key'' = key
      · rw [hkey', blocks_put_self] at hb'
        exact absurd hb (hforeign hkey hb')
      · rw [blocks_put_of_ne hkey'] at hb'
        exact h.owned hb hb'
  · show Canonical (store.intervals _)
    by_cases hkey : key' = key
    · subst hkey
      rw [blocks_put_self]
      exact hres.canonical
    · rw [blocks_put_of_ne hkey, hkept hkey]
      exact h.canonical key'
  · show Covers (store.intervals _) i ↔ Function.update σ.slot key slot key' i ≠ none
    by_cases hkey : key' = key
    · subst hkey
      rw [blocks_put_self, Function.update_self, hres.covers, hslot]
    · rw [blocks_put_of_ne hkey, hkept hkey, Function.update_of_ne hkey]
      exact h.covers key' i
  · show Function.update σ.used key blocks key' ≠ some []
    by_cases hkey : key' = key
    · subst hkey
      rw [Function.update_self]
      exact hsome
    · rw [Function.update_of_ne hkey]
      exact h.some_block key'
  · show Function.update σ.slot key slot key' i ≠ some []
    by_cases hkey : key' = key
    · subst hkey
      rw [Function.update_self]
      exact hitems i
    · rw [Function.update_of_ne hkey]
      exact h.some_item key' i
  · have hne' : Function.update σ.slot key slot key' i ≠ none := hne
    by_cases hkey : key' = key
    · subst hkey
      rw [Function.update_self] at hne'
      exact hbound i hne'
    · rw [Function.update_of_ne hkey] at hne'
      exact h.bounded hne'

lemma update_ne_none {f : ℤ → Option (List DbObject)} {i j : ℤ} :
    Function.update f i x j ≠ none ↔ (j = i ∧ x ≠ none) ∨ (j ≠ i ∧ f j ≠ none) := by
  by_cases hj : j = i
  · subst hj
    simp
  · simp [hj]

/-- Writing a slot: the blocks have to follow when it is created or goes away. -/
theorem updateSlot (h : Kept σ) (ival : ℤ)
    (hres : Result σ.store store (others σ key) (blocks.getD []) P) (hsome : blocks ≠ some [])
    (hx : x ≠ some []) (hbound : x ≠ none → int32Min < ival ∧ ival < int32Max)
    (hP : ∀ i, P i ↔ (i = ival ∧ x ≠ none) ∨ (i ≠ ival ∧ σ.slot key i ≠ none)) :
    Kept (put σ key store blocks (Function.update (σ.slot key) ival x)) := by
  refine h.update hres hsome (fun i => ?_) (fun i => ?_) (fun i hi => ?_)
  · rw [hP, update_ne_none]
  · by_cases hi : i = ival
    · subst hi
      rw [Function.update_self]
      exact hx
    · rw [Function.update_of_ne hi]
      exact h.some_item key i
  · rcases update_ne_none.1 hi with ⟨rfl, hne⟩ | ⟨_, hne⟩
    · exact hbound hne
    · exact h.bounded hne

lemma setItems (h : Kept σ) (hold : σ.slot key ival ≠ none) (hne : items ≠ []) :
    Kept { σ with
      slot := Function.update σ.slot key (Function.update (σ.slot key) ival (some items)) } := by
  have hready := h.ready key
  have hres : Result σ.store σ.store (others σ key) ((σ.used key).getD [])
      (fun i => σ.slot key i ≠ none) :=
    { stock := hready.stock
      frame := fun _ => rfl
      canonical := hready.canonical
      covers := h.covers key }
  have hput := h.updateSlot ival (x := some items) hres (h.some_block key) (by simpa using hne)
    (fun _ => h.bounded hold) (fun i => by
      by_cases hi : i = ival
      · subst hi
        simp [hold]
      · simp [hi])
  rw [put, Function.update_eq_self] at hput
  exact hput

/-- Adding an entry succeeds and keeps the invariant. -/
theorem add (h : Kept σ) (hbound : int32Min < ival ∧ ival < int32Max) :
    ∃ σ', udbAddRangeEntry σ key ival object = .ok σ' ∧ Kept σ' := by
  rw [udbAddRangeEntry]
  cases hslot : σ.slot key ival with
  | some items =>
    refine ⟨_, rfl, h.setItems (by simp [hslot]) ?_⟩
    split
    · exact fun hnil => h.some_item key ival (hnil ▸ hslot)
    · simp
  | none =>
    have hnew : ¬ Covers (σ.store.intervals (σ.blocks key)) ival := by
      rw [h.covers, hslot]
      exact not_not.2 rfl
    rcases addUsed_spec (h.ready key) (h.some_block key) hnew with ⟨store, col, heq, hres⟩
    have hne : some col ≠ some [] := by
      intro hnil
      have hcov := (hres.covers ival).2 (.inr rfl)
      rw [Option.some.inj hnil] at hcov
      exact absurd hcov ClosedInterval.covers_nil
    have hres' : Result σ.store store (others σ key) ((some col).getD []) _ := hres
    have hput := h.updateSlot ival (x := some [object]) hres' hne (by simp) (fun _ => hbound)
      fun i => by
        show Covers (σ.store.intervals (σ.blocks key)) i ∨ i = ival ↔ _
        rw [h.covers]
        by_cases hi : i = ival
        · simp [hi]
        · simp [hi]
    simp only [heq, bind, Except.bind]
    exact ⟨_, rfl, hput⟩

/-- Deleting an entry that is there succeeds and keeps the invariant. -/
theorem delete (h : Kept σ) (hslot : σ.slot key ival = some items) (hobject : object ∈ items) :
    ∃ σ', udbDeleteRangeEntry σ key ival object = .ok σ' ∧ Kept σ' := by
  have hold : σ.slot key ival ≠ none := by simp [hslot]
  rw [udbDeleteRangeEntry, hslot]
  simp only [if_neg (not_not.2 hobject)]
  by_cases hlast : items.erase object = []
  · have hcov : Covers (σ.store.intervals (σ.blocks key)) ival := (h.covers key ival).2 hold
    rcases delUsed_spec (h.ready key) hcov with ⟨store, blocks, heq, hne, hres⟩
    have hput := h.updateSlot ival (x := none) hres hne (by simp) (fun hx => absurd rfl hx)
      fun i => by
        show Covers (σ.store.intervals (σ.blocks key)) i ∧ i ≠ ival ↔ _
        rw [h.covers]
        by_cases hi : i = ival
        · simp [hi]
        · simp [hi]
    simp only [if_pos hlast, heq, bind, Except.bind]
    exact ⟨_, rfl, hput⟩
  · rw [if_neg hlast]
    exact ⟨_, rfl, h.setItems hold hlast⟩

lemma step (h : Kept σ) {op : Op} (hop : op.Proper σ) :
    ∃ σ', Range.step σ op = .ok σ' ∧ Kept σ' := by
  cases op with
  | add key ival object => exact h.add hop
  | delete key ival object =>
    rcases hop with ⟨_, items, hslot, hobject⟩
    exact h.delete hslot hobject

lemma of_run (hrun : Run State.empty σ) : Kept σ := by
  induction hrun with
  | refl => exact empty
  | tail _ hstep ih =>
    rcases hstep with ⟨op, hop, heq⟩
    rcases ih.step hop with ⟨σ', heq', hkept⟩
    obtain rfl := Except.ok.inj (heq.symm.trans heq')
    exact hkept

end Kept

/-- In every state of a run, the blocks of each range object are canonical intervals, they contain
exactly the values with a slot that has an item, the range object exists exactly when there is such
a value, and every further call returns. -/
theorem usedRanges_of_run {σ : State} (hrun : Run State.empty σ) :
    (∀ key, Canonical (σ.store.intervals (σ.blocks key)) ∧
      (∀ i, Covers (σ.store.intervals (σ.blocks key)) i ↔ σ.Held key i) ∧
      (σ.used key ≠ none ↔ ∃ i, σ.Held key i)) ∧
    ∀ op : Op, op.Proper σ → ∃ σ', step σ op = .ok σ' := by
  have h := Kept.of_run hrun
  refine ⟨fun key => ⟨h.canonical key, fun i => ?_, ?_⟩, fun op hop => ?_⟩
  · rw [h.covers, h.held_iff]
  · constructor
    · intro hused
      rcases Option.ne_none_iff_exists'.1 hused with ⟨col, hcol⟩
      have hblocks : σ.blocks key = col := by rw [blocks, hcol]; rfl
      cases col with
      | nil => exact absurd hcol (h.some_block key)
      | cons b col =>
        -- The start of the first block is a value in use.
        have hmem : σ.store.bounds b ∈ σ.store.intervals (σ.blocks key) := by
          rw [hblocks]
          exact List.mem_cons_self
        have hle := (h.canonical key).proper _ hmem
        refine ⟨σ.store.rangeStart b, (h.held_iff key _).2 ((h.covers key _).1 ?_)⟩
        exact ⟨_, hmem, le_refl _, hle⟩
    · rintro ⟨i, hheld⟩ hnone
      have hcov := (h.covers key i).2 ((h.held_iff key i).1 hheld)
      rw [blocks, hnone] at hcov
      exact absurd hcov ClosedInterval.covers_nil
  · rcases h.step hop with ⟨σ', heq, _⟩
    exact ⟨σ', heq⟩

def threeEntries : State :=
  (([Op.add (1, ['u']) 4 2, .add (1, ['u']) 6 3, .add (1, ['u']) 5 4].foldlM step
    State.empty).toOption).getD State.empty

lemma threeEntries_run : Run State.empty threeEntries := by
  have hfirst : Run empty _ :=
    Relation.ReflTransGen.single ⟨.add (1, ['u']) 4 2, ⟨by decide, by decide⟩, rfl⟩
  have hsecond := hfirst.tail ⟨.add (1, ['u']) 6 3, ⟨by decide, by decide⟩, rfl⟩
  exact hsecond.tail ⟨.add (1, ['u']) 5 4, ⟨by decide, by decide⟩, rfl⟩

/-- The value 5 merges the blocks of 4 and 6; when it is deleted there are two blocks again. -/
theorem usedRanges_of_run_split :
    threeEntries.store.intervals (threeEntries.blocks (1, ['u'])) = [(4, 6)] ∧
      ∃ σ, step threeEntries (.delete (1, ['u']) 5 4) = .ok σ ∧
        σ.store.intervals (σ.blocks (1, ['u'])) = [(4, 4), (6, 6)] ∧
        ∀ i, Covers (σ.store.intervals (σ.blocks (1, ['u']))) i ↔ σ.Held (1, ['u']) i := by
  obtain ⟨σ, hstep, hblocks⟩ : ∃ σ, step threeEntries (.delete (1, ['u']) 5 4) = .ok σ ∧
      σ.store.intervals (σ.blocks (1, ['u'])) = [(4, 4), (6, 6)] := ⟨_, rfl, rfl⟩
  have hrun : Run State.empty σ := threeEntries_run.tail
    ⟨.delete (1, ['u']) 5 4, ⟨⟨by decide, by decide⟩, [4], rfl, by decide⟩, hstep⟩
  exact ⟨rfl, σ, hstep, hblocks, ((usedRanges_of_run hrun).1 (1, ['u'])).2.1⟩

end Range
end Unameit
