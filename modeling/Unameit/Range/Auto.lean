import Unameit.Range.Run
import Mathlib.Order.Bounds.Basic

/-!
# Range.Auto — the next free integer

`Udb_Auto_Integer` walks the blocks of a range object in ascending order and moves its candidate
behind every block that it meets.  The candidate behind the block that ends at the greatest 32 bit
integer is the least one, so that this block is passed over as if it lay below the candidate; what
is returned is the least free value exactly if there is one (`udbAutoInteger_isLeast_iff`).
-/

namespace Unameit
namespace Range

open ClosedInterval (Covers Canonical)
open List

def autoLoop (s : Store) : List DbObject → ℤ → ℤ
  | [], minFree => minFree
  | block :: col, minFree =>
    if minFree > int32 (s.rangeEnd block + 1) then autoLoop s col minFree
    else if minFree < s.rangeStart block then minFree
    else autoLoop s col (int32 (s.rangeEnd block + 1))

def udbAutoInteger (σ : State) (key : Key) (minFree : ℤ) : ℤ :=
  match σ.used key with
  | none => minFree
  | some col => autoLoop σ.store col minFree

def IsInt32 (x : ℤ) : Prop :=
  int32Min ≤ x ∧ x ≤ int32Max

/-- The values from `minFree` on that no block contains. -/
def free (l : List ClosedInterval) (minFree : ℤ) : Set ℤ :=
  {i | minFree ≤ i ∧ ¬ Covers l i}

section Scan

variable {s : Store} {col : List DbObject} {block : DbObject} {minFree : ℤ}
  {l : List ClosedInterval} {a : ClosedInterval}

lemma int32_isInt32 (x : ℤ) : IsInt32 (int32 x) := by
  have hrange := int32_range x
  unfold IsInt32 int32Min int32Max
  omega

/-- A block below the candidate does not matter. -/
theorem free_cons_of_lt (hlt : a.2 < minFree) : free (a :: l) minFree = free l minFree := by
  ext i
  unfold free
  rw [Set.mem_ofPred_eq, ClosedInterval.covers_cons]
  refine and_congr_right fun hi => not_congr (or_iff_right ?_)
  omega

/-- A block at the candidate moves it. -/
theorem free_cons_of_mem (hlow : a.1 ≤ minFree) (hhigh : minFree ≤ a.2 + 1) :
    free (a :: l) minFree = free l (a.2 + 1) := by
  ext i
  unfold free
  rw [Set.mem_ofPred_eq, ClosedInterval.covers_cons, not_or]
  constructor
  · rintro ⟨hi, hblock, hrest⟩
    exact ⟨by omega, hrest⟩
  · rintro ⟨hi, hrest⟩
    exact ⟨by omega, by omega, hrest⟩

lemma isLeast_free_of_lt (h : Canonical (a :: l)) (hlt : minFree < a.1) :
    IsLeast (free (a :: l) minFree) minFree := by
  refine ⟨⟨le_refl _, ?_⟩, fun i hi => hi.1⟩
  have hle := h.proper a mem_cons_self
  rw [ClosedInterval.covers_cons, not_or]
  exact ⟨by omega, h.not_covers_tail (by omega)⟩

lemma autoLoop_isInt32 (hmin : IsInt32 minFree) : IsInt32 (autoLoop s col minFree) := by
  induction col generalizing minFree with
  | nil => exact hmin
  | cons block col ih =>
    unfold autoLoop
    split_ifs
    · exact ih hmin
    · exact hmin
    · exact ih (int32_isInt32 _)

/-- If there is a free value, the loop finds the least one. -/
theorem autoLoop_isLeast (hcan : Canonical (s.intervals col))
    (hfits : ∀ b ∈ col, IsInt32 (s.rangeStart b) ∧ IsInt32 (s.rangeEnd b)) (hmin : IsInt32 minFree)
    (hfree : ∃ i ∈ free (s.intervals col) minFree, i ≤ int32Max) :
    IsLeast (free (s.intervals col) minFree) (autoLoop s col minFree) := by
  induction col generalizing minFree with
  | nil => exact ⟨⟨le_refl _, ClosedInterval.covers_nil⟩, fun i hi => hi.1⟩
  | cons block col ih =>
    have hcan' : Canonical (s.bounds block :: s.intervals col) := hcan
    have hbounds : s.bounds block = (s.rangeStart block, s.rangeEnd block) := rfl
    have hrest : ∀ b ∈ col, IsInt32 (s.rangeStart b) ∧ IsInt32 (s.rangeEnd b) := fun b hb =>
      hfits b (mem_cons_of_mem _ hb)
    rcases hfits block mem_cons_self with ⟨hstart, hend⟩
    have hcons : s.intervals (block :: col) = s.bounds block :: s.intervals col := rfl
    rw [hcons] at hfree ⊢
    unfold autoLoop
    rcases Int.lt_or_eq_of_le hend.2 with hlt | htop
    · -- the sum does not overflow
      have hsucc : int32 (s.rangeEnd block + 1) = s.rangeEnd block + 1 :=
        int32_eq (by have := hend.1; omega) (by omega)
      rw [hsucc]
      by_cases habove : minFree > s.rangeEnd block + 1
      · rw [if_pos habove]
        have hset : free (s.bounds block :: s.intervals col) minFree =
            free (s.intervals col) minFree := free_cons_of_lt (by rw [hbounds]; dsimp only; omega)
        rw [hset] at hfree ⊢
        exact ih hcan'.tail hrest hmin hfree
      · rw [if_neg habove]
        by_cases hbelow : minFree < s.rangeStart block
        · rw [if_pos hbelow]
          exact isLeast_free_of_lt hcan' hbelow
        · rw [if_neg hbelow]
          have hset : free (s.bounds block :: s.intervals col) minFree =
              free (s.intervals col) (s.rangeEnd block + 1) :=
            free_cons_of_mem (a := s.bounds block) (by rw [hbounds]; dsimp only; omega)
              (by rw [hbounds]; dsimp only; omega)
          rw [hset] at hfree ⊢
          exact ih hcan'.tail hrest ⟨by have := hend.1; omega, by omega⟩ hfree
    · -- the block ends at the greatest integer, and the free value lies before it
      have hbelow : minFree < s.rangeStart block := by
        rcases hfree with ⟨i, ⟨hi, hout⟩, hmax⟩
        rw [ClosedInterval.covers_cons, hbounds] at hout
        omega
      have hnil : col = [] := by
        rw [eq_nil_iff_forall_not_mem]
        intro b hb
        have hgap := (pairwise_cons.1 hcan'.apart).1 (s.bounds b) (mem_map_of_mem hb)
        have hb' := (hrest b hb).1.2
        unfold Store.bounds at hgap
        omega
      have hloop : autoLoop s col minFree = minFree := by
        rw [hnil]
        rfl
      rw [hloop, if_pos hbelow, ite_self]
      exact isLeast_free_of_lt hcan' hbelow

end Scan

lemma udbAutoInteger_eq (σ : State) (key : Key) (minFree : ℤ) :
    udbAutoInteger σ key minFree = autoLoop σ.store (σ.blocks key) minFree := by
  unfold udbAutoInteger State.blocks
  cases σ.used key with
  | none => rfl
  | some col => rfl

lemma Kept.isInt32 {σ : State} (h : Kept σ) {key : Key} {b : DbObject} (hb : b ∈ σ.blocks key) :
    IsInt32 (σ.store.rangeStart b) ∧ IsInt32 (σ.store.rangeEnd b) := by
  rcases (h.ready key).fits b hb with ⟨hlow, hhigh⟩
  have hle := (h.ready key).proper hb
  exact ⟨⟨by omega, by omega⟩, ⟨by omega, by omega⟩⟩

/-- In every state of a run, where only values between the two extremes are entered, the least value
without a slot is returned. -/
theorem autoInteger_of_run {σ : State} (hrun : Run State.empty σ) (key : Key) {minFree : ℤ}
    (hmin : IsInt32 minFree) :
    IsLeast {i | minFree ≤ i ∧ ¬ σ.Held key i} (udbAutoInteger σ key minFree) := by
  have h := Kept.of_run hrun
  have hset : {i | minFree ≤ i ∧ ¬ σ.Held key i} =
      free (σ.store.intervals (σ.blocks key)) minFree := by
    ext i
    exact and_congr_right fun _ => not_congr ((h.held_iff key i).trans (h.covers key i).symm)
  have htop : ¬ Covers (σ.store.intervals (σ.blocks key)) int32Max := by
    rintro ⟨a, ha, _, hmax⟩
    rcases mem_map.1 ha with ⟨b, hb, rfl⟩
    exact absurd hmax (not_le_of_gt ((h.ready key).fits b hb).2)
  rw [hset, udbAutoInteger_eq]
  exact autoLoop_isLeast (h.canonical key) (fun b hb => h.isInt32 hb) hmin
    ⟨int32Max, ⟨hmin.2, htop⟩, le_refl _⟩

theorem autoInteger_of_run_three : IsLeast {i | 5 ≤ i ∧ ¬ threeEntries.Held (1, ['u']) i} 7 :=
  autoInteger_of_run threeEntries_run (1, ['u']) ⟨by decide, by decide⟩

/-- The value that is returned is the least one from `minFree` on that no block contains, exactly if
there is such a value among the 32 bit integers. -/
theorem udbAutoInteger_isLeast_iff (σ : State) (key : Key) {minFree : ℤ} (hmin : IsInt32 minFree)
    (hcan : Canonical (σ.store.intervals (σ.blocks key)))
    (hfits : ∀ b ∈ σ.blocks key, IsInt32 (σ.store.rangeStart b) ∧ IsInt32 (σ.store.rangeEnd b)) :
    IsLeast {i | minFree ≤ i ∧ ¬ Covers (σ.store.intervals (σ.blocks key)) i}
        (udbAutoInteger σ key minFree) ↔
      ∃ i, minFree ≤ i ∧ i ≤ int32Max ∧ ¬ Covers (σ.store.intervals (σ.blocks key)) i := by
  rw [udbAutoInteger_eq]
  constructor
  · intro hleast
    exact ⟨_, hleast.1.1, (autoLoop_isInt32 hmin).2, hleast.1.2⟩
  · rintro ⟨i, hi, hmax, hout⟩
    exact autoLoop_isLeast hcan hfits hmin ⟨i, ⟨hi, hout⟩, hmax⟩

/-- The values 4, 5 and 6 are in use. -/
theorem udbAutoInteger_isLeast_three :
    udbAutoInteger threeEntries (1, ['u']) 5 = 7 ∧
      IsLeast {i | 5 ≤ i ∧ ¬ Covers (threeEntries.store.intervals
        (threeEntries.blocks (1, ['u']))) i} 7 := by
  have h := Kept.of_run threeEntries_run
  refine ⟨rfl, (udbAutoInteger_isLeast_iff threeEntries (1, ['u']) ⟨by decide, by decide⟩
    (h.canonical _) (fun b hb => h.isInt32 hb)).2 ⟨7, by decide, by decide, ?_⟩⟩
  show ¬ Covers [(4, 6)] 7
  rw [ClosedInterval.covers_singleton]
  decide

/-- The greatest integer is the only one in use: from there on nothing is free, and the value in use
is returned. -/
theorem udbAutoInteger_top : ∃ σ, udbAddRangeEntry State.empty (1, ['u']) int32Max 2 = .ok σ ∧
    σ.store.intervals (σ.blocks (1, ['u'])) = [(int32Max, int32Max)] ∧
    udbAutoInteger σ (1, ['u']) int32Max = int32Max ∧
    Covers (σ.store.intervals (σ.blocks (1, ['u']))) (udbAutoInteger σ (1, ['u']) int32Max) := by
  refine ⟨_, rfl, rfl, rfl, (int32Max, int32Max), ?_, ?_⟩
  · exact mem_singleton.2 rfl
  · exact ⟨le_refl _, le_refl _⟩

end Range
end Unameit
