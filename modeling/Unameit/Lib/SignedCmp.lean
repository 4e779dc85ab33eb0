import Unameit.Lib.Int32

/-!
# SignedCmp — comparisons by the sign of a number

A comparison function of C returns an integer whose sign says which of the two comes first.  When the
result is a difference it may wrap around, so that two values come before each other, or three come
before each other in a circle.  Everything else about such a comparison is as it should be
(`Oriented`), also when several comparisons are made one after the other (`thenCmp`), and so the
comparison is a total preorder exactly where it is transitive (`Oriented.totalPreorder_iff`).
-/

namespace Unameit

variable {α β ι : Type*}

structure Oriented (c : α → α → ℤ) : Prop where
  self : ∀ x, c x x = 0
  swap : ∀ x y, c y x = int32 (-c x y)
  congr : ∀ {x y}, c x y = 0 → ∀ z, c x z = c y z

/-- The sign is turned by turning the arguments, and the relation is transitive. -/
structure TotalPreorder (S : Set α) (c : α → α → ℤ) : Prop where
  opposite : ∀ x ∈ S, ∀ y ∈ S, (c y x).sign = -(c x y).sign
  trans : ∀ x ∈ S, ∀ y ∈ S, ∀ z ∈ S, c x y ≤ 0 → c y z ≤ 0 → c x z ≤ 0

lemma TotalPreorder.congr_sign {S : Set α} {c d : α → α → ℤ} (h : TotalPreorder S c)
    (heq : ∀ x ∈ S, ∀ y ∈ S, (c x y).sign = (d x y).sign) : TotalPreorder S d where
  opposite x hx y hy := by
    rw [← heq x hx y hy, ← heq y hy x hx, h.opposite x hx y hy]
  trans x hx y hy z hz hxy hyz := by
    rw [← Int.sign_nonpos_iff, ← heq _ ‹_› _ ‹_›, Int.sign_nonpos_iff] at hxy hyz ⊢
    exact h.trans x hx y hy z hz hxy hyz

def Ascending (c : α → α → ℤ) (x y z : α) : Prop :=
  c x y < 0 → c y z < 0 → c x z < 0

/-- The result of the first of two comparisons that makes a difference. -/
def thenCmp (r r' : ℤ) : ℤ :=
  if r ≠ 0 then r else r'

@[simp] lemma thenCmp_zero (r : ℤ) : thenCmp 0 r = r :=
  rfl

lemma thenCmp_of_ne {r : ℤ} (h : r ≠ 0) (r' : ℤ) : thenCmp r r' = r :=
  if_pos h

lemma thenCmp_eq_zero {r r' : ℤ} (h : thenCmp r r' = 0) : r = 0 ∧ r' = 0 := by
  by_cases hr : r = 0
  · exact ⟨hr, by simpa [hr] using h⟩
  · exact absurd ((thenCmp_of_ne hr r').symm.trans h) hr

lemma oriented_sub : Oriented fun i j : ℤ => int32 (i - j) where
  self i := by simp [int32]
  swap i j := by rw [int32_neg, neg_sub]
  congr {i j} h k := by
    have hij : (i - k - (j - k)).bmod (2 ^ 32) = 0 := by
      rw [sub_sub_sub_cancel_right]
      exact h
    exact Int.bmod_eq_bmod_iff_bmod_sub_eq_zero.2 hij

namespace Oriented

variable {c d : α → α → ℤ} {x y z : α}

lemma on (h : Oriented c) (f : β → α) : Oriented fun x y => c (f x) (f y) :=
  ⟨fun _ => h.self _, fun _ _ => h.swap _ _, fun hxy _ => h.congr hxy _⟩

lemma congr_right (h : Oriented c) (hyz : c y z = 0) : c x y = c x z := by
  rw [h.swap y x, h.swap z x, h.congr hyz]

lemma swap_zero (h : Oriented c) (hxy : c x y = 0) : c y x = 0 := by
  rw [h.swap x y, hxy]
  rfl

/-- Turning the arguments of a positive comparison makes it negative: `2 ^ 31` is out of range. -/
theorem swap_pos (h : Oriented c) (hxy : 0 < c x y) : c y x < 0 := by
  have hrange := int32_range (-c y x)
  rw [← h.swap y x] at hrange
  rw [h.swap x y, int32_of_lt (by omega) (by omega)]
  omega

lemma andThen (h : Oriented c) (hswap : ∀ x y, c x y = 0 → d y x = int32 (-d x y))
    (hself : ∀ x, d x x = 0)
    (hcongr : ∀ {x y}, c x y = 0 → d x y = 0 → ∀ z, c x z = 0 → d x z = d y z) :
    Oriented fun x y => thenCmp (c x y) (d x y) where
  self x := by simp [h.self x, hself x]
  swap x y := by
    by_cases hxy : c x y = 0
    · simpa [hxy, h.swap_zero hxy] using hswap x y hxy
    · have hyx : c y x ≠ 0 := fun hyx => hxy (h.swap_zero hyx)
      rw [thenCmp_of_ne hxy, thenCmp_of_ne hyx, h.swap x y]
  congr {x y} hzero z := by
    obtain ⟨hc, hd⟩ := thenCmp_eq_zero hzero
    rw [← h.congr hc z]
    by_cases hz : c x z = 0
    · rw [hz, thenCmp_zero, thenCmp_zero, hcongr hc hd z hz]
    · rw [thenCmp_of_ne hz, thenCmp_of_ne hz]

lemma ascending_andThen (h : Oriented c) (hc : Ascending c x y z)
    (hd : c x y = 0 → c y z = 0 → Ascending d x y z) :
    Ascending (fun x y => thenCmp (c x y) (d x y)) x y z := by
  simp only [Ascending]
  intro hxy hyz
  by_cases h₁ : c x y = 0
  · have hxz := h.congr h₁ z
    by_cases h₂ : c y z = 0
    · simp only [h₁, h₂, hxz, thenCmp_zero] at hxy hyz ⊢
      exact hd h₁ h₂ hxy hyz
    · rw [thenCmp_of_ne h₂] at hyz
      rwa [hxz, thenCmp_of_ne h₂]
  · rw [thenCmp_of_ne h₁] at hxy
    by_cases h₂ : c y z = 0
    · rwa [← h.congr_right h₂, thenCmp_of_ne h₁]
    · rw [thenCmp_of_ne h₂] at hyz
      have hxz := hc hxy hyz
      rwa [thenCmp_of_ne hxz.ne]

lemma totalPreorder_iff (h : Oriented c) {S : Set α} :
    TotalPreorder S c ↔ ∀ x ∈ S, ∀ y ∈ S, ∀ z ∈ S, Ascending c x y z := by
  constructor
  · intro hS x hx y hy z hz hxy hyz
    refine lt_of_le_of_ne (hS.trans x hx y hy z hz hxy.le hyz.le) fun hxz => ?_
    -- equal ends would make the sign of `c y z` that of `c z y`
    have hopp := hS.opposite y hy z hz
    rw [← h.congr hxz y, Int.sign_eq_neg_one_of_neg hxy, Int.sign_eq_neg_one_of_neg hyz] at hopp
    exact absurd hopp (by decide)
  · intro hS
    have hne : ∀ x ∈ S, ∀ y ∈ S, c x y < 0 → 0 < c y x := by
      intro x hx y hy hxy
      rcases lt_trichotomy (c y x) 0 with hyx | hyx | hyx
      · exact absurd (hS x hx y hy x hx hxy hyx) (by simp [h.self x])
      · exact absurd (h.swap_zero hyx) hxy.ne
      · exact hyx
    refine ⟨fun x hx y hy => ?_, fun x hx y hy z hz hxy hyz => ?_⟩
    · rcases lt_trichotomy (c x y) 0 with hxy | hxy | hxy
      · rw [Int.sign_eq_neg_one_of_neg hxy, Int.sign_eq_one_of_pos (hne x hx y hy hxy)]
        rfl
      · rw [hxy, h.swap_zero hxy]
        rfl
      · rw [Int.sign_eq_one_of_pos hxy, Int.sign_eq_neg_one_of_neg (h.swap_pos hxy)]
    · rcases hxy.lt_or_eq with hxy | hxy
      · rcases hyz.lt_or_eq with hyz | hyz
        · exact (hS x hx y hy z hz hxy hyz).le
        · exact (h.congr_right hyz ▸ hxy).le
      · rwa [h.congr hxy z]

end Oriented

/-! ## Comparisons one after the other -/

variable {c : ι → α → α → ℤ} {l : List ι} {x y z : α}

/-- The first comparison that makes a difference decides. -/
theorem foldr_thenCmp_of_tied {k : ℕ} {a : ι} (ha : l[k]? = some a)
    (htied : ∀ b ∈ l.take k, c b x y = 0) (hne : c a x y ≠ 0) :
    (l.map fun a => c a x y).foldr thenCmp 0 = c a x y := by
  induction l generalizing k with
  | nil => simp at ha
  | cons b l ih =>
    cases k with
    | zero =>
      obtain rfl : b = a := by simpa using ha
      exact thenCmp_of_ne hne _
    | succ k =>
      rw [List.take_succ_cons, List.forall_mem_cons] at htied
      rw [List.map_cons, List.foldr_cons, htied.1]
      exact ih (by simpa using ha) htied.2

lemma oriented_foldr (h : ∀ a, Oriented (c a)) (l : List ι) :
    Oriented fun x y => (l.map fun a => c a x y).foldr thenCmp 0 := by
  induction l with
  | nil => exact ⟨fun _ => rfl, fun _ _ => rfl, fun _ _ => rfl⟩
  | cons a l ih => exact (h a).andThen (fun x y _ => ih.swap x y) ih.self fun _ hd z _ => ih.congr hd z

lemma ascending_foldr (h : ∀ a, Oriented (c a))
    (hasc : ∀ k a, l[k]? = some a → (∀ b ∈ l.take k, c b x y = 0 ∧ c b y z = 0) →
      Ascending (c a) x y z) :
    Ascending (fun x y => (l.map fun a => c a x y).foldr thenCmp 0) x y z := by
  induction l with
  | nil => exact fun h => absurd h (lt_irrefl 0)
  | cons a l ih =>
    refine (h a).ascending_andThen (hasc 0 a rfl (by simp)) fun hxy hyz => ih fun k b hb htied => ?_
    exact hasc (k + 1) b (by simpa using hb) (List.forall_mem_cons.2 ⟨⟨hxy, hyz⟩, htied⟩)

end Unameit
