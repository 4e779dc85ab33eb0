import Mathlib.Data.List.Basic

/-!
# Overwrite — writing into a part of a list

`overwrite l off b` puts `b` into `l` from position `off` on.  The list keeps its length; what would
lie beyond its end is lost.
-/

namespace Unameit

open List

variable {α : Type*}

def overwrite (l : List α) (off : ℕ) (b : List α) : List α :=
  (l.take off ++ b ++ l.drop (off + b.length)).take l.length

variable {l b b' : List α} {off k : ℕ}

@[simp]
lemma length_overwrite (l : List α) (off : ℕ) (b : List α) :
    (overwrite l off b).length = l.length := by
  simp only [overwrite, length_take, length_append, length_drop]
  omega

lemma overwrite_eq (h : off + b.length ≤ l.length) :
    overwrite l off b = l.take off ++ b ++ l.drop (off + b.length) := by
  refine take_of_length_le ?_
  simp only [length_append, length_take, length_drop]
  omega

@[simp]
lemma overwrite_nil (l : List α) (off : ℕ) : overwrite l off [] = l := by
  simp [overwrite]

lemma take_overwrite (h : off + b.length ≤ l.length) :
    (overwrite l off b).take (off + b.length) = l.take off ++ b := by
  rw [overwrite_eq h, take_append_of_le_length, take_of_length_le]
  · simp only [length_append, length_take]
    omega
  · simp only [length_append, length_take]
    omega

lemma drop_overwrite (h : off + b.length ≤ l.length) (hk : off + b.length ≤ k) :
    (overwrite l off b).drop k = l.drop k := by
  have hlen : (l.take off ++ b).length = off + b.length := by
    simp only [length_append, length_take]
    omega
  rw [overwrite_eq h, drop_append, hlen, drop_eq_nil_of_le (by omega), nil_append,
    drop_drop, Nat.add_sub_cancel' hk]

lemma overwrite_append_left (x y : List α) (h : off + b.length ≤ x.length) :
    overwrite (x ++ y) off b = overwrite x off b ++ y := by
  rw [overwrite_eq (by rw [length_append]; omega), overwrite_eq h,
    take_append_of_le_length (by omega), drop_append_of_le_length h]
  simp

lemma overwrite_append_right (x y : List α) (h : off + b.length ≤ y.length) :
    overwrite (x ++ y) (x.length + off) b = x ++ overwrite y off b := by
  rw [overwrite_eq (by rw [length_append]; omega), overwrite_eq h, take_length_add_append,
    Nat.add_assoc]
  simp

lemma take_overwrite_of_le (h : off + b.length ≤ k) (hk : k ≤ l.length) :
    (overwrite l off b).take k = overwrite (l.take k) off b := by
  have hlen : (l.take k).length = k := by
    rw [length_take, Nat.min_eq_left hk]
  have happ : overwrite (l.take k ++ l.drop k) off b = overwrite (l.take k) off b ++ l.drop k :=
    overwrite_append_left _ _ (by omega)
  rw [take_append_drop] at happ
  rw [happ, take_left' (by rw [length_overwrite, hlen])]

/-- Writing twice, the second time where the first one has stopped. -/
theorem overwrite_overwrite (h : off + b.length + b'.length ≤ l.length) :
    overwrite (overwrite l off b) (off + b.length) b' = overwrite l off (b ++ b') := by
  have hlen : (b ++ b').length = b.length + b'.length := length_append
  rw [overwrite_eq (by rw [length_overwrite]; omega), take_overwrite (by omega),
    drop_overwrite (by omega) (by omega), overwrite_eq (by omega)]
  simp [Nat.add_assoc]

lemma overwrite_replicate (n off k : ℕ) (a : α) :
    overwrite (List.replicate n a) off (List.replicate k a) = List.replicate n a := by
  refine eq_replicate_iff.2 ⟨by simp, fun x hx => ?_⟩
  have hmem := mem_of_mem_take hx
  simp only [mem_append] at hmem
  rcases hmem with (htake | hmid) | hdrop
  · exact eq_of_mem_replicate (mem_of_mem_take htake)
  · exact eq_of_mem_replicate hmid
  · exact eq_of_mem_replicate (mem_of_mem_drop hdrop)

end Unameit
