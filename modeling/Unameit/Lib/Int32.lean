import Mathlib.Tactic

/-!
# Int32 — integers of 32 bits

An expression of a signed 32-bit type has its mathematical value modulo `2 ^ 32`.
-/

namespace Unameit

/-- The value of an expression of a signed 32-bit type. -/
def int32 (x : ℤ) : ℤ :=
  x.bmod (2 ^ 32)

variable {x : ℤ}

lemma int32_range (x : ℤ) : -2 ^ 31 ≤ int32 x ∧ int32 x < 2 ^ 31 :=
  ⟨Int.le_bmod (by decide), Int.bmod_lt (by decide)⟩

lemma int32_of_lt (hlo : -2 ^ 31 ≤ x) (hhi : x < 2 ^ 31) : int32 x = x := by
  unfold int32
  rw [Int.bmod_def]
  split_ifs
  · omega
  · omega

lemma int32_of_ge (hlo : 2 ^ 31 ≤ x) (hhi : x < 2 ^ 32) : int32 x = x - 2 ^ 32 := by
  unfold int32
  rw [Int.bmod_def]
  split_ifs
  · omega
  · omega

lemma int32_neg (x : ℤ) : int32 (-int32 x) = int32 (-x) :=
  Int.bmod_neg_bmod

end Unameit
