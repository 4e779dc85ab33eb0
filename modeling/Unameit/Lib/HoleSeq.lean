import Mathlib.Data.List.Dedup
import Mathlib.Data.List.ReduceOption
import Mathlib.Tactic

/-!
# HoleSeq — sequences whose elements may be missing

A database sequence of object references behaves like a list of optional values: reading past
the end gives nothing, and writing past the end extends the sequence with holes.  Each operation is
characterised by what `nth` reads afterwards.
-/

namespace Unameit
namespace HoleSeq

open List

variable {α : Type*} {s : List (Option α)} {i : ℕ} {o : α}

def nth (s : List (Option α)) (i : ℕ) : Option α :=
  (s[i]?).join

/-- Write position `i`, filling with holes when the sequence is too short. -/
def put (s : List (Option α)) (i : ℕ) (v : Option α) : List (Option α) :=
  if i < s.length then s.set i v else s ++ List.replicate (i - s.length) none ++ [v]

/-- Write `f 0, …, f (n - 1)` to the positions `i, …, i + n - 1`, in this order. -/
def putRun (s : List (Option α)) (i : ℕ) (f : ℕ → Option α) : ℕ → List (Option α)
  | 0 => s
  | n + 1 => put (putRun s i f n) (i + n) (f n)

/-- Copy the values at positions `i, …, i + n - 1` of `s` into a new sequence, skipping holes. -/
def copyRun (s : List (Option α)) (i : ℕ) : ℕ → List (Option α)
  | 0 => []
  | n + 1 =>
    match nth s (i + n) with
    | none => copyRun s i n
    | some o => put (copyRun s i n) n (some o)

def cardinality (s : List (Option α)) : ℕ :=
  s.countP Option.isSome

/-- The distinct values of a sequence; of several equal values the last one counts. -/
def values [DecidableEq α] (s : List (Option α)) : List α :=
  s.reduceOption.dedup

@[simp] lemma nth_nil (i : ℕ) : nth ([] : List (Option α)) i = none := by
  simp [nth]

lemma nth_of_length_le (h : s.length ≤ i) : nth s i = none := by
  simp [nth, getElem?_eq_none h]

lemma lt_length_of_nth_eq_some (h : nth s i = some o) : i < s.length := by
  by_contra hle
  rw [nth_of_length_le (Nat.le_of_not_lt hle)] at h
  cases h

lemma nth_put (s : List (Option α)) (i : ℕ) (v : Option α) (j : ℕ) :
    nth (put s i v) j = if j = i then v else nth s j := by
  unfold put
  split
  · rename_i hlt
    by_cases hj : j = i
    · subst hj
      simp [nth, hlt]
    · simp [nth, Ne.symm hj, hj]
  · rename_i hge
    have hlen : s.length ≤ i := Nat.le_of_not_lt hge
    rcases Nat.lt_trichotomy j i with hji | rfl | hij
    · by_cases hjs : j < s.length
      · have : j ≠ i := ne_of_lt hji
        simp [nth, getElem?_append, hjs, this]
      · have hne : j ≠ i := ne_of_lt hji
        have hrep : j - s.length < i - s.length := by omega
        simp [nth, getElem?_append, hjs, hne, hrep]
    · have hrep : ¬ j < s.length := not_lt.2 hlen
      simp [nth, getElem?_append, hrep]
    · have hne : j ≠ i := ne_of_gt hij
      have hjs : s.length ≤ j := by omega
      have hlong : (s ++ replicate (i - s.length) none ++ [v]).length ≤ j := by
        simp
        omega
      rw [nth_of_length_le hlong, nth_of_length_le hjs, if_neg hne]

lemma nth_putRun (s : List (Option α)) (i : ℕ) (f : ℕ → Option α) (n j : ℕ) :
    nth (putRun s i f n) j = if i ≤ j ∧ j < i + n then f (j - i) else nth s j := by
  induction n with
  | zero =>
    have hempty : ¬ (i ≤ j ∧ j < i + 0) := by omega
    rw [putRun, if_neg hempty]
  | succ n ih =>
    rw [putRun, nth_put, ih]
    by_cases hj : j = i + n
    · subst hj
      simp
    · have hiff : (i ≤ j ∧ j < i + n) ↔ (i ≤ j ∧ j < i + (n + 1)) := by omega
      simp [hj, hiff]

lemma nth_copyRun (s : List (Option α)) (i n j : ℕ) :
    nth (copyRun s i n) j = if j < n then nth s (i + j) else none := by
  induction n with
  | zero => simp [copyRun]
  | succ n ih =>
    rw [copyRun]
    cases hn : nth s (i + n) with
    | none =>
      rw [ih]
      by_cases hj : j = n
      · subst hj
        simp [hn]
      · have hiff : j < n ↔ j < n + 1 := by omega
        simp [hiff]
    | some o =>
      rw [nth_put, ih]
      by_cases hj : j = n
      · subst hj
        simp [hn]
      · have hiff : j < n ↔ j < n + 1 := by omega
        simp [hj, hiff]

lemma cardinality_eq_zero_iff (s : List (Option α)) : cardinality s = 0 ↔ ∀ i, nth s i = none := by
  rw [cardinality, countP_eq_zero]
  constructor
  · intro h i
    cases hi : nth s i with
    | none => rfl
    | some o =>
      have hlt := lt_length_of_nth_eq_some hi
      have hmem : s[i] ∈ s := getElem_mem hlt
      have hval : s[i] = some o := by
        simpa [nth, getElem?_eq_getElem hlt] using hi
      exact absurd (by simp [hval]) (h _ hmem)
  · intro h o ho
    obtain ⟨i, hlt, rfl⟩ := getElem_of_mem ho
    have hi := h i
    simp only [nth, getElem?_eq_getElem hlt, Option.join_some] at hi
    simp [hi]

/-! ## Values from a position on -/

lemma reduceOption_drop (s : List (Option α)) (i : ℕ) :
    (s.drop i).reduceOption = (nth s i).toList ++ (s.drop (i + 1)).reduceOption := by
  by_cases hi : i < s.length
  · rw [drop_eq_getElem_cons hi]
    have hnth : nth s i = s[i] := by simp [nth, getElem?_eq_getElem hi]
    rw [hnth]
    cases s[i] with
    | none => rfl
    | some o => rfl
  · have hlen : s.length ≤ i := Nat.le_of_not_lt hi
    rw [nth_of_length_le hlen, drop_eq_nil_of_le hlen,
      drop_eq_nil_of_le (Nat.le_succ_of_le hlen)]
    rfl

lemma reduceOption_drop_run {n : ℕ} (h : ∀ j, i ≤ j → j < i + n → nth s j = some o) :
    (s.drop i).reduceOption = List.replicate n o ++ (s.drop (i + n)).reduceOption := by
  induction n with
  | zero => simp
  | succ n ih =>
    rw [ih fun j hij hj => h j hij (Nat.lt_succ_of_lt hj), reduceOption_drop s (i + n),
      h (i + n) (Nat.le_add_right i n) (Nat.lt_succ_self _), replicate_succ']
    simp [add_assoc]

section Values

variable [DecidableEq α]

lemma mem_values_drop {s : List (Option α)} {i : ℕ} {o : α} :
    o ∈ values (s.drop i) ↔ ∃ j, i ≤ j ∧ nth s j = some o := by
  rw [values, mem_dedup, reduceOption_mem_iff, mem_iff_getElem?]
  constructor
  · rintro ⟨k, hk⟩
    rw [getElem?_drop] at hk
    exact ⟨i + k, Nat.le_add_right i k, by simp [nth, hk]⟩
  · rintro ⟨j, hij, hj⟩
    refine ⟨j - i, ?_⟩
    rw [getElem?_drop, Nat.add_sub_cancel' hij]
    simpa [nth, Option.join_eq_some_iff] using hj

lemma mem_values {s : List (Option α)} {o : α} : o ∈ values s ↔ ∃ j, nth s j = some o := by
  simpa using mem_values_drop (s := s) (i := 0) (o := o)

lemma values_drop_none {s : List (Option α)} {i : ℕ} (h : nth s i = none) :
    values (s.drop i) = values (s.drop (i + 1)) := by
  rw [values, reduceOption_drop, h]
  rfl

/-- A run of equal values that do not occur later counts once. -/
theorem values_drop_run {s : List (Option α)} {i n : ℕ} {o : α} (hn : 0 < n)
    (h : ∀ j, i ≤ j → j < i + n → nth s j = some o) (hlater : ∀ j, i + n ≤ j → nth s j ≠ some o) :
    values (s.drop i) = o :: values (s.drop (i + n)) := by
  have hnot : o ∉ (s.drop (i + n)).reduceOption := by
    intro ho
    rcases mem_values_drop.1 (mem_dedup.2 ho) with ⟨j, hj, hval⟩
    exact hlater j hj hval
  rw [values, reduceOption_drop_run h, values]
  generalize (s.drop (i + n)).reduceOption = rest at hnot
  clear h hlater
  induction n with
  | zero => exact absurd hn (lt_irrefl 0)
  | succ n ih =>
    cases n with
    | zero => exact dedup_cons_of_notMem hnot
    | succ n =>
      rw [replicate_succ, cons_append, dedup_cons_of_mem]
      · exact ih (Nat.succ_pos n)
      · exact mem_cons_self

end Values

end HoleSeq
end Unameit
