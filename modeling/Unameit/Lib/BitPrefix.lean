import Mathlib.Data.Nat.Bitwise
import Mathlib.Tactic

/-!
# BitPrefix — bit streams, common prefixes and windows

An address is a stream of bits, most significant bit first.  Two streams `Agree n` when their
first `n` bits are equal; `window f n w` reads the `w` bits from position `n` as a number.  The
lemmas say how dividing a window by a power of two forgets its last bits, and how taking it
modulo a power of two keeps only them, which is all the arithmetic a multi-bit trie needs.
-/

namespace Unameit

/-- An address as an infinite stream of bits, most significant first. -/
abbrev BitStream := ℕ → Bool

variable {n m w k i : ℕ} {f g : BitStream}

namespace BitStream

def Agree (n : ℕ) (f g : BitStream) : Prop :=
  ∀ k, k < n → f k = g k

/-- The `w` bits from position `n`, read as a binary number. -/
def window (f : BitStream) (n w : ℕ) : ℕ :=
  Nat.ofBits fun j : Fin w => f (n + w - 1 - j)

lemma Agree.refl (n : ℕ) (f : BitStream) : Agree n f f :=
  fun _ _ => rfl

lemma Agree.symm (h : Agree n f g) : Agree n g f :=
  fun k hk => (h k hk).symm

lemma Agree.trans {e : BitStream} (h : Agree n f g) (h' : Agree n g e) : Agree n f e :=
  fun k hk => (h k hk).trans (h' k hk)

lemma Agree.mono (h : Agree n f g) (hmn : m ≤ n) : Agree m f g :=
  fun k hk => h k (lt_of_lt_of_le hk hmn)

lemma Agree.extend (h : Agree m f g) (h' : ∀ k, m ≤ k → k < n → f k = g k) : Agree n f g := by
  intro k hk
  rcases lt_or_ge k m with hkm | hkm
  · exact h k hkm
  · exact h' k hkm hk

/-! ## Windows -/

lemma window_lt (f : BitStream) (n w : ℕ) : window f n w < 2 ^ w :=
  Nat.ofBits_lt_two_pow _

lemma testBit_window (f : BitStream) (n w j : ℕ) :
    (window f n w).testBit j = (decide (j < w) && f (n + w - 1 - j)) := by
  unfold window
  rw [Nat.testBit_ofBits]
  by_cases hj : j < w <;> simp [hj]

/-- Dividing by `2 ^ k` forgets the last `k` bits of a window. -/
theorem window_div_eq_iff (f g : BitStream) (hk : k ≤ w) :
    window f n w / 2 ^ k = window g n w / 2 ^ k ↔
      ∀ m, n ≤ m → m < n + w - k → f m = g m := by
  constructor
  · intro h m hnm hm
    have hbit := congrArg (fun x => Nat.testBit x (n + w - 1 - m - k)) h
    have hlt : n + w - 1 - m - k + k < w := by omega
    have hpos : n + w - 1 - (n + w - 1 - m - k + k) = m := by omega
    simpa [Nat.testBit_div_two_pow, testBit_window, hlt, hpos] using hbit
  · intro h
    apply Nat.eq_of_testBit_eq
    intro i
    rw [Nat.testBit_div_two_pow, Nat.testBit_div_two_pow, testBit_window, testBit_window]
    by_cases hi : i + k < w
    · rw [h (n + w - 1 - (i + k)) (by omega) (by omega)]
    · simp [hi]

/-- A window modulo `2 ^ k` is the window of its last `k` bits. -/
theorem window_mod (f : BitStream) (hk : k ≤ w) :
    window f n w % 2 ^ k = window f (n + w - k) k := by
  apply Nat.eq_of_testBit_eq
  intro i
  rw [Nat.testBit_mod_two_pow, testBit_window, testBit_window]
  by_cases hi : i < k
  · have hiw : i < w := by omega
    have hpos : n + w - k + k - 1 - i = n + w - 1 - i := by omega
    simp [hi, hiw, hpos]
  · simp [hi]

lemma window_eq_iff (f g : BitStream) (n w : ℕ) :
    window f n w = window g n w ↔ ∀ m, n ≤ m → m < n + w → f m = g m := by
  have h := window_div_eq_iff f g (n := n) (w := w) (Nat.zero_le w)
  simpa using h

lemma window_eq_zero_iff (f : BitStream) (n w : ℕ) :
    window f n w = 0 ↔ ∀ m, n ≤ m → m < n + w → f m = false := by
  constructor
  · intro h m hnm hm
    have hbit := testBit_window f n w (n + w - 1 - m)
    have hlt : n + w - 1 - m < w := by omega
    have hpos : n + w - 1 - (n + w - 1 - m) = m := by omega
    rw [h, hpos] at hbit
    simpa [hlt] using hbit.symm
  · intro h
    apply Nat.eq_of_testBit_eq
    intro i
    rw [testBit_window]
    by_cases hi : i < w
    · simp [h (n + w - 1 - i) (by omega) (by omega)]
    · simp [hi]

/-- A window is a multiple of `2 ^ k` exactly when its last `k` bits are clear. -/
theorem window_mod_eq_zero_iff (f : BitStream) (hk : k ≤ w) :
    window f n w % 2 ^ k = 0 ↔ ∀ m, n + w - k ≤ m → m < n + w → f m = false := by
  rw [window_mod f hk, window_eq_zero_iff]
  have : n + w - k + k = n + w := by omega
  rw [this]

/-! ## Writing a number into a stream -/

/-- The first `n` bits of a stream, the number `i` as the next `w` bits, and zeros. -/
def splice (f : BitStream) (n w i : ℕ) : BitStream :=
  fun k => if k < n then f k else decide (k < n + w) && i.testBit (n + w - 1 - k)

lemma splice_agree (f : BitStream) (n w i : ℕ) : Agree n (splice f n w i) f := by
  intro k hk
  rw [splice, if_pos hk]

lemma splice_of_ge (f : BitStream) (i : ℕ) (hk : n ≤ k) :
    splice f n w i k = (decide (k < n + w) && i.testBit (n + w - 1 - k)) := by
  rw [splice, if_neg (not_lt.2 hk)]

lemma window_splice (f : BitStream) (n w : ℕ) (hi : i < 2 ^ w) :
    window (splice f n w i) n w = i := by
  apply Nat.eq_of_testBit_eq
  intro j
  rw [testBit_window]
  by_cases hj : j < w
  · have hpos : n + w - 1 - (n + w - 1 - j) = j := by omega
    have hlt : n + w - 1 - j < n + w := by omega
    rw [splice_of_ge f i (by omega), hpos]
    simp [hj, hlt]
  · have hbit : i.testBit j = false :=
      Nat.testBit_lt_two_pow (lt_of_lt_of_le hi (Nat.pow_le_pow_right (by norm_num) (by omega)))
    simp [hj, hbit]

/-- The bits after those of a number that ends with `z` zeros are all clear. -/
theorem splice_eq_false (f : BitStream) {z : ℕ} (hz : z ≤ w) (hi : i % 2 ^ z = 0)
    (hk : n + w - z ≤ k) : splice f n w i k = false := by
  rw [splice_of_ge f i (by omega)]
  by_cases hlt : k < n + w
  · have hbit := congrArg (fun x => Nat.testBit x (n + w - 1 - k)) hi
    have hlow : n + w - 1 - k < z := by omega
    simpa [hlt, hlow] using hbit
  · simp [hlt]

/-- Every number of `w` bits is the window of some stream with the given first `n` bits. -/
theorem exists_window (f : BitStream) (n w : ℕ) (hi : i < 2 ^ w) :
    ∃ g : BitStream, Agree n g f ∧ window g n w = i :=
  ⟨splice f n w i, splice_agree f n w i, window_splice f n w hi⟩

end BitStream
end Unameit
