import Unameit.Lib.BitPrefix

/-!
# Regroup — bit streams in cells of another width

A stream of bits that comes in chunks of `w` bits is stored in cells of `v` bits.  A chunk goes into a
cell shifted to the right or to the left; the cells that have been filled with the first `p` bits are
`Packed`.
-/

namespace Unameit
namespace BitStream

variable {f : BitStream} {c p v w : ℕ}

/-! ## Cells -/

/-- A stream that is cut into cells is read back from them. -/
theorem window_cells {cell : ℕ → ℕ} (hw : 0 < w) {k : ℕ} (hk : cell k < 2 ^ w) :
    window (fun n => (cell (n / w)).testBit (w - 1 - n % w)) (w * k) w = cell k := by
  apply Nat.eq_of_testBit_eq
  intro j
  rw [testBit_window]
  by_cases hj : j < w
  · have hpos : w * k + w - 1 - j = w - 1 - j + w * k := by omega
    have hlt : w - 1 - j < w := by omega
    have hback : w - 1 - (w - 1 - j) = j := by omega
    simp [hj, hpos, Nat.add_mul_div_left _ _ hw, Nat.div_eq_of_lt hlt, Nat.mod_eq_of_lt hlt, hback]
  · have hlt : cell k < 2 ^ j := hk.trans_le (Nat.pow_le_pow_right (by decide) (by omega))
    simp [hj, Nat.testBit_lt_two_pow hlt]

lemma testBit_cell (hw : 0 < w) (f : BitStream) (n : ℕ) :
    (window f (w * (n / w)) w).testBit (w - 1 - n % w) = f n := by
  have hmod := Nat.mod_lt n hw
  have hdiv := Nat.div_add_mod n w
  have hpos : w * (n / w) + w - 1 - (w - 1 - n % w) = n := by omega
  have hlt : w - 1 - n % w < w := by omega
  rw [testBit_window, hpos]
  simp [hlt]

/-! ## Chunks -/

/-- The bits of the stream from `p` to `p + w`. -/
def chunk (f : BitStream) (p w : ℕ) : BitStream :=
  fun n => decide (p ≤ n ∧ n < p + w) && f n

lemma window_chunk_right (h : c + v ≤ p + w) :
    window (chunk f p w) c v = (window f p w >>> (p + w - (c + v))) % 2 ^ v := by
  apply Nat.eq_of_testBit_eq
  intro j
  rw [Nat.testBit_mod_two_pow, Nat.testBit_shiftRight, testBit_window, testBit_window, chunk]
  by_cases hj : j < v
  · have hpos : p + w - 1 - (p + w - (c + v) + j) = c + v - 1 - j := by omega
    have hiff : p + w - (c + v) + j < w ↔ p ≤ c + v - 1 - j ∧ c + v - 1 - j < p + w := by omega
    simp only [hj, hpos, hiff]
  · simp [hj]

lemma window_chunk_left (h : p + w ≤ c + v) :
    window (chunk f p w) c v = (window f p w <<< (c + v - (p + w))) % 2 ^ v := by
  apply Nat.eq_of_testBit_eq
  intro j
  rw [Nat.testBit_mod_two_pow, Nat.testBit_shiftLeft, testBit_window, testBit_window, chunk]
  by_cases hj : j < v
  · by_cases hge : c + v - (p + w) ≤ j
    · have hpos : p + w - 1 - (j - (c + v - (p + w))) = c + v - 1 - j := by omega
      have hiff : j - (c + v - (p + w)) < w ↔ p ≤ c + v - 1 - j ∧ c + v - 1 - j < p + w := by omega
      simp [hj, hpos, hiff, hge]
    · have hnot : ¬ (p ≤ c + v - 1 - j ∧ c + v - 1 - j < p + w) := by omega
      simp [hj, hge, hnot]
  · simp [hj]

lemma window_chunk_inside (h : p ≤ c) (h' : c + v ≤ p + w) :
    window (chunk f p w) c v = window f c v := by
  refine (window_eq_iff _ _ _ _).2 fun m hm hm' => ?_
  have hin : p ≤ m ∧ m < p + w := by omega
  simp [chunk, hin]

lemma window_chunk_disjoint (h : c + v ≤ p ∨ p + w ≤ c) : window (chunk f p w) c v = 0 := by
  apply Nat.eq_of_testBit_eq
  intro j
  rw [testBit_window, Nat.zero_testBit, chunk]
  by_cases hj : j < v
  · have hnot : ¬ (p ≤ c + v - 1 - j ∧ c + v - 1 - j < p + w) := by omega
    simp [hnot]
  · simp [hj]

/-- The first `N` cells of `v` bits hold the first `p` bits of the stream, and zeros. -/
def Packed (v N : ℕ) (out : ℕ → ℕ) (p : ℕ) (f : BitStream) : Prop :=
  ∀ k < N, out k = window (chunk f 0 p) (v * k) v

lemma Packed.zero (v N : ℕ) (f : BitStream) : Packed v N (fun _ => 0) 0 f :=
  fun _ _ => (window_chunk_disjoint (Or.inr (Nat.zero_le _))).symm

lemma Packed.add {N : ℕ} {out out' : ℕ → ℕ} (h : Packed v N out p f)
    (hout : ∀ k < N, out' k = out k ||| window (chunk f p w) (v * k) v) :
    Packed v N out' (p + w) f := by
  intro k hk
  rw [hout k hk, h k hk]
  apply Nat.eq_of_testBit_eq
  intro j
  simp only [Nat.testBit_or, testBit_window, chunk]
  by_cases hj : j < v
  · have hiff : ((0 ≤ v * k + v - 1 - j ∧ v * k + v - 1 - j < 0 + p) ∨
        (p ≤ v * k + v - 1 - j ∧ v * k + v - 1 - j < p + w)) ↔
        (0 ≤ v * k + v - 1 - j ∧ v * k + v - 1 - j < 0 + (p + w)) := by omega
    rw [← Bool.and_or_distrib_left, ← Bool.and_or_distrib_right, ← Bool.decide_or]
    simp only [hiff]
  · simp [hj]

end BitStream
end Unameit
