import Unameit.Address

/-!
# Address.CommonBits — the block between two addresses

`Unameit_Common_Bits` decides whether the addresses from the first text to the second are one aligned
block, and returns the length of its prefix.  It walks over the digits as long as they are equal, looks
the first pair that differs up in a table, and then wants zeros in the one text and ones in the other.
-/

namespace Unameit
namespace Address

open BitStream
open List

/-! ## Blocks -/

variable {c : Char} {x n : ℕ} {as bs : CString}

lemma hexChar_of_hexValue (h : hexValue c = some x) : x < 16 ∧ hexChar x = c := by
  have hall : ∀ m < 128, ∀ x ∈ hexValue (Char.ofNat m), x < 16 ∧ hexChar x = Char.ofNat m := by
    decide +kernel
  by_cases hc : c.toNat < 128
  · have hchar := hall c.toNat hc
    rw [Char.ofNat_toNat] at hchar
    exact hchar x h
  · have hle : ∀ d : Char, d.toNat < 128 → ¬ c ≤ d := fun d hd h => hc (Nat.lt_of_le_of_lt h hd)
    simp [hexValue, hle] at h

end Address
end Unameit
