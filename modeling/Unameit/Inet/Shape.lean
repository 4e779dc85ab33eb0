import Unameit.Inet.Tree

/-!
# Inet.Shape — the block tree as a prefix tree

`SUB_INDEX` reads the bits of a prefix from the end of the parent block up to the next multiple
of four.  With that, the `subs`, `super` and `bits` attributes are a prefix tree in the sense of
`Unameit.Cover`.  `BlockTree` states what a well-formed tree of blocks is in terms of the entries of
the `subs` sequences; `Shape` is the same fact in the form the proofs use.
-/

namespace Unameit
namespace Inet

open Option

variable {b s : DbObject} {a : BitStream} {i n : ℕ}

open HoleSeq (nth)
open BitStream

/-! ## Bits of prefixes and sub-block indices -/

def InetPrefix.stream (p : InetPrefix) : BitStream :=
  fun k => (p.octets.getD (k / 8) 0).getMsbD (k % 8)

lemma subBits_eq (bits : ℕ) : subBits bits = 4 - bits % 4 := by
  have hmask : bits &&& (2 ^ 2 - 1) = bits % 2 ^ 2 := Nat.and_two_pow_sub_one_eq_mod bits 2
  simpa [subBits, nshift] using congrArg (4 - ·) hmask

lemma subBits_pos (bits : ℕ) : 0 < subBits bits := by
  rw [subBits_eq]
  omega

lemma fam_bits (fam : Family) : fam.bits = 8 * fam.octets := by
  simp [Family.bits, Nat.shiftLeft_eq, mul_comm]

lemma fam_bits_pos (fam : Family) : 0 < fam.bits := by
  have := fam.octets_pos
  rw [fam_bits]
  omega

/-- `SUB_INDEX` is the window from the length of the block to the next boundary. -/
theorem subIndex_eq_window (p : InetPrefix) (bits : ℕ) :
    subIndex p bits = window p.stream bits (subBits bits) := by
  have hsub := subBits_eq bits
  have hmask : bits &&& (2 ^ 3 - 1) = bits % 2 ^ 3 := Nat.and_two_pow_sub_one_eq_mod bits 3
  have hshift : subShift bits = 8 - bits % 8 - subBits bits := by
    simpa [subShift] using congrArg (fun x => 8 - x - subBits bits) hmask
  apply Nat.eq_of_testBit_eq
  intro j
  have hones : subMask bits = 2 ^ subBits bits - 1 := by
    simp [subMask, Nat.shiftLeft_eq]
  rw [testBit_window, subIndex, Nat.testBit_and, Nat.testBit_shiftRight, hones,
    hshift, Nat.shiftRight_eq_div_pow]
  by_cases hj : j < subBits bits
  · -- Both sides read the same bit of the same octet.
    have hdiv : (bits + subBits bits - 1 - j) / 8 = bits / 2 ^ 3 := by omega
    have hmod : (bits + subBits bits - 1 - j) % 8 = bits % 8 + subBits bits - 1 - j := by omega
    have hpos : 8 - bits % 8 - subBits bits + j = 8 - 1 - (bits % 8 + subBits bits - 1 - j) := by
      omega
    have hlt : bits % 8 + subBits bits - 1 - j < 8 := by omega
    rw [InetPrefix.stream, hdiv, hmod, hpos, BitVec.getMsbD, BitVec.testBit_toNat]
    simp [hj, hlt]
  · simp [hj]

/-! ## The layout of a tree -/

def Tree.layout (t : Tree) (root : DbObject) : Layout DbObject BitStream where
  root := root
  len := t.bits
  parent := t.super
  child := fun b a => nth (t.subs b) (window a (t.bits b) (subBits (t.bits b)))

@[simp] lemma layout_len (t : Tree) (r : DbObject) : (t.layout r).len = t.bits := rfl
@[simp] lemma layout_parent (t : Tree) (r : DbObject) : (t.layout r).parent = t.super := rfl

lemma layout_child (t : Tree) (r b : DbObject) (a : BitStream) :
    (t.layout r).child b a = nth (t.subs b) (window a (t.bits b) (subBits (t.bits b))) := rfl

/-- Block `b` is met on the way down from the root at address `a`, so that the prefix of `b`
covers `a`. -/
inductive Tree.Covers (t : Tree) (a : BitStream) : DbObject → Prop
  | root {r : DbObject} : t.rootBlock = some r → Tree.Covers t a r
  | sub {b s : DbObject} : Tree.Covers t a b →
      nth (t.subs b) (window a (t.bits b) (subBits (t.bits b))) = some s → Tree.Covers t a s

/-- The index after the last sub-block of a block of length `bits`, as a length. -/
def boundary (bits : ℕ) : ℕ :=
  bits + subBits bits

lemma boundary_eq (bits : ℕ) : boundary bits = 4 * (bits / 4 + 1) := by
  rw [boundary, subBits_eq]
  omega

/-- A tree of blocks is well formed when the root has length 0, and every entry `s` of the `subs`
of a block `b` has `b` as its `super`, is longer than `b` without passing the next boundary, and
fills exactly the aligned run of indices that share its prefix. -/
structure BlockTree (fam : Family) (t : Tree) : Prop where
  root : ∃ r, t.rootBlock = some r ∧ t.bits r = 0
  entry : ∀ {a b i s}, t.Covers a b → nth (t.subs b) i = some s →
    t.bits b < fam.bits ∧ i < 2 ^ subBits (t.bits b) ∧ t.super s = some b ∧
      t.bits b < t.bits s ∧ t.bits s ≤ boundary (t.bits b)
  run : ∀ {a b i s}, t.Covers a b → nth (t.subs b) i = some s →
    ∀ j, nth (t.subs b) j = some s ↔
      j / 2 ^ (boundary (t.bits b) - t.bits s) = i / 2 ^ (boundary (t.bits b) - t.bits s)

/-- The addresses that each block covers. -/
abbrev Coverage := DbObject → BitStream → Prop

/-- The working form of `BlockTree`: a cover of the layout whose entries stay in their bounds. -/
structure Shape (fam : Family) (t : Tree) (r : DbObject) (T : Coverage) :
    Prop where
  root : t.rootBlock = some r
  cover : Cover (t.layout r) T
  fits : ∀ {a b i s}, T b a → nth (t.subs b) i = some s →
    t.bits b < fam.bits ∧ i < 2 ^ subBits (t.bits b) ∧ t.bits s ≤ boundary (t.bits b)

namespace Shape

variable {fam : Family} {t : Tree} {r : DbObject} {T : Coverage}

section

variable (h : Shape fam t r T)

include h

lemma bits_root : t.bits r = 0 :=
  h.cover.root_len

lemma covers_iff (b : DbObject) (a : BitStream) : t.Covers a b ↔ T b a := by
  constructor
  · intro hb
    induction hb with
    | root hr =>
      obtain rfl := some.inj (hr.symm.trans h.root)
      exact h.cover.root_mem a
    | sub _ hs ih =>
      exact (h.cover.child_mem ih hs).1
  · intro hb
    rcases h.cover.exists_descent hb with ⟨k, hk⟩
    induction k generalizing b with
    | zero =>
      cases hk
      exact .root h.root
    | succ k ih =>
      rcases bind_eq_some_iff.1 hk with ⟨c, hc, hchild⟩
      exact .sub (ih c (h.cover.descent_mem a hc) hc) hchild

lemma bits_le (hb : T b a) : t.bits b ≤ fam.bits := by
  by_cases hroot : b = r
  · subst hroot
    rw [h.bits_root]
    exact Nat.zero_le _
  · rcases h.cover.parent_of_mem hb hroot with ⟨c, _, hc, hchild⟩
    rcases h.fits hc hchild with ⟨hlt, _, hle⟩
    rw [boundary_eq] at hle
    have := fam_bits fam
    omega

/-- The entry at every index of a block is the child at some address of the block. -/
theorem exists_child (hb : T b a) (hs : nth (t.subs b) i = some s) :
    ∃ a', T b a' ∧ window a' (t.bits b) (subBits (t.bits b)) = i ∧
      (t.layout r).child b a' = some s := by
  rcases h.fits hb hs with ⟨_, hi, _⟩
  rcases exists_window a (t.bits b) (subBits (t.bits b)) hi with ⟨a', hag, hw⟩
  refine ⟨a', h.cover.mem_of_agree hb hag.symm, hw, ?_⟩
  rw [layout_child, hw]
  exact hs

lemma super_of_entry (hb : T b a) (hs : nth (t.subs b) i = some s) :
    t.super s = some b ∧ t.bits b < t.bits s := by
  rcases h.exists_child hb hs with ⟨a', hb', _, hchild⟩
  exact (h.cover.child_mem hb' hchild).2

end

/-- Two addresses of a block point into the same aligned run exactly when they agree as far as
the sub-block that fills it. -/
theorem window_div_iff {b : ℕ} {a' : BitStream} (hag : Agree b a a') (hbn : b ≤ n)
    (hn : n ≤ boundary b) :
    window a b (subBits b) / 2 ^ (boundary b - n) = window a' b (subBits b) / 2 ^ (boundary b - n)
      ↔ Agree n a a' := by
  have hk : boundary b - n ≤ subBits b := by
    rw [boundary] at *
    omega
  rw [window_div_eq_iff a a' hk]
  have hend : b + subBits b - (boundary b - n) = n := by
    rw [boundary] at *
    omega
  rw [hend]
  constructor
  · intro h
    exact hag.extend h
  · intro h m _ hm
    exact h m hm

lemma blockTree (h : Shape fam t r T) : BlockTree fam t := by
  refine ⟨⟨r, h.root, h.bits_root⟩, ?_, ?_⟩
  · intro a b i s hb hs
    rw [h.covers_iff] at hb
    rcases h.fits hb hs with ⟨hlt, hi, hle⟩
    rcases h.super_of_entry hb hs with ⟨hsuper, hbits⟩
    exact ⟨hlt, hi, hsuper, hbits, hle⟩
  · intro a b i s hb hs j
    rw [h.covers_iff] at hb
    rcases h.fits hb hs with ⟨_, hi, hle⟩
    rcases h.exists_child hb hs with ⟨a', hb', hw, hchild⟩
    have hbits := (h.cover.child_mem hb' hchild).2.2
    have hs' := (h.cover.child_mem hb' hchild).1
    subst hw
    constructor
    · intro hj
      rcases h.exists_child hb hj with ⟨a'', hb'', hw', hchild'⟩
      have hs'' := (h.cover.child_mem hb'' hchild').1
      subst hw'
      exact (window_div_iff (h.cover.agree_of_mem hb'' hb') (le_of_lt hbits) hle).2
        (h.cover.agree_of_mem hs'' hs')
    · intro hj
      have hj' : j < 2 ^ subBits (t.bits b) := by
        -- `j` lies in the same run as an index within bounds.
        have hsplit : 2 ^ subBits (t.bits b) =
            2 ^ (subBits (t.bits b) - (boundary (t.bits b) - t.bits s)) *
              2 ^ (boundary (t.bits b) - t.bits s) := by
          rw [← Nat.pow_add]
          congr 1
          rw [layout_len] at hbits
          rw [boundary] at *
          omega
        rw [hsplit] at hi ⊢
        have hq := Nat.div_lt_of_lt_mul (by simpa [mul_comm] using hi)
        rw [← hj] at hq
        exact (Nat.div_lt_iff_lt_mul (Nat.pow_pos (by norm_num))).1 hq
      rcases exists_window a' (t.bits b) (subBits (t.bits b)) hj' with ⟨a'', hag, hw'⟩
      subst hw'
      have hagree := (window_div_iff hag (le_of_lt hbits) hle).1 hj
      have hs'' : T s a'' := h.cover.mem_of_agree hs' hagree.symm
      have hne : s ≠ r := h.cover.ne_root_of_pos (Nat.lt_of_le_of_lt (Nat.zero_le _) hbits)
      rcases h.cover.parent_of_mem hs'' hne with ⟨c, hparent, _, hchild''⟩
      obtain rfl : c = b := some.inj
        (hparent.symm.trans (h.cover.child_mem hb' hchild).2.1)
      exact hchild''

end Shape

/-- A well-formed tree of blocks is a prefix tree, with `Covers` as its cover. -/
theorem BlockTree.shape {fam : Family} {t : Tree} (h : BlockTree fam t) {r : DbObject}
    (hr : t.rootBlock = some r) : Shape fam t r (fun b a => t.Covers a b) := by
  have hbits : t.bits r = 0 := by
    rcases h.root with ⟨r', hr', h0⟩
    obtain rfl : r' = r := some.inj (hr'.symm.trans hr)
    exact h0
  -- Every block met below the root is an entry of its `super` block.
  have hparent : ∀ {a s}, t.Covers a s → s ≠ r → ∃ b, t.super s = some b ∧ t.Covers a b ∧
      nth (t.subs b) (window a (t.bits b) (subBits (t.bits b))) = some s := by
    intro a s hs hne
    cases hs with
    | root hr' => exact absurd (some.inj (hr'.symm.trans hr)) hne
    | sub hb hs => exact ⟨_, (h.entry hb hs).2.2.1, hb, hs⟩
  have hchild : ∀ {a b s}, t.Covers a b →
      nth (t.subs b) (window a (t.bits b) (subBits (t.bits b))) = some s →
      t.Covers a s ∧ t.super s = some b ∧ t.bits b < t.bits s := by
    intro a b s hb hs
    rcases h.entry hb hs with ⟨_, _, hsuper, hlt, _⟩
    exact ⟨.sub hb hs, hsuper, hlt⟩
  have hagree : ∀ n b a a', t.bits b ≤ n → t.Covers a b → t.Covers a' b →
      Agree (t.bits b) a a' := by
    intro n
    induction n with
    | zero =>
      intro b a a' hn _ _ k hk
      omega
    | succ n ih =>
      intro s a a' hn hs hs'
      by_cases hne : s = r
      · subst hne
        intro k hk
        omega
      · rcases hparent hs hne with ⟨b, hsuper, hb, hent⟩
        rcases hparent hs' hne with ⟨b', hsuper', hb', hent'⟩
        obtain rfl : b = b' := some.inj (hsuper.symm.trans hsuper')
        rcases h.entry hb hent with ⟨_, _, _, hlt, hle⟩
        have hag := ih b a a' (by omega) hb hb'
        exact (Shape.window_div_iff hag (le_of_lt hlt) hle).1 ((h.run hb' hent' _).1 hent)
  have hextend : ∀ n b a a', t.bits b ≤ n → t.Covers a b → Agree (t.bits b) a a' →
      t.Covers a' b := by
    intro n
    induction n with
    | zero =>
      intro b a a' hn hb _
      by_cases hne : b = r
      · exact hne ▸ .root hr
      · rcases hparent hb hne with ⟨c, _, hc, hent⟩
        have := (hchild hc hent).2.2
        omega
    | succ n ih =>
      intro s a a' hn hs hag
      by_cases hne : s = r
      · exact hne ▸ .root hr
      · rcases hparent hs hne with ⟨b, _, hb, hent⟩
        rcases h.entry hb hent with ⟨_, _, _, hlt, hle⟩
        have hagb : Agree (t.bits b) a a' := hag.mono (le_of_lt hlt)
        have hb' := ih b a a' (by omega) hb hagb
        refine .sub hb' ((h.run hb hent _).2 ?_)
        exact ((Shape.window_div_iff hagb (le_of_lt hlt) hle).2 hag).symm
  refine ⟨hr, ?_, ?_⟩
  · exact
      { root_len := hbits
        root_mem := fun a => .root hr
        agree_of_mem := fun hb hb' => hagree _ _ _ _ (le_refl _) hb hb'
        mem_of_agree := fun hb hag => hextend _ _ _ _ (le_refl _) hb hag
        child_mem := hchild
        parent_of_mem := hparent }
  · intro a b i s hb hs
    rcases h.entry hb hs with ⟨hlt, hi, _, _, hle⟩
    exact ⟨hlt, hi, hle⟩

/-! ## Aligned runs

The tree code fills or clears a run of indices that starts at the sub-block index of a prefix.
This is the run of a block of length `n` only if the prefix has no bits set between `n` and the
next boundary.
-/

/-- No bit of `p` is set between `n` and the next boundary, unless `n` is a boundary itself. -/
def InetPrefix.AlignedAt (p : InetPrefix) (n : ℕ) : Prop :=
  n % 4 = 0 ∨ ∀ k, n ≤ k → k < boundary n → p.stream k = false

lemma boundary_of_lt {m : ℕ} (hmn : m ≤ n) (hn : n < boundary m) : boundary n = boundary m := by
  rw [boundary_eq] at *
  rw [boundary_eq]
  omega

lemma boundary_mod (n : ℕ) : boundary n % 4 = 0 := by
  rw [boundary_eq]
  omega

lemma mem_run_iff_div_eq {j k : ℕ} (hk : 0 < k) (hi : i % k = 0) :
    i ≤ j ∧ j < i + k ↔ j / k = i / k := by
  obtain ⟨q, rfl⟩ := Nat.dvd_of_mod_eq_zero hi
  rw [Nat.mul_div_cancel_left _ hk, Nat.div_eq_iff hk, mul_comm q k]
  omega

namespace InetPrefix.AlignedAt

variable {p : InetPrefix} {m n : ℕ}

lemma of_boundary (p : InetPrefix) (n : ℕ) : p.AlignedAt (boundary n) :=
  .inl (boundary_mod n)

/-- The run of an aligned prefix starts at a multiple of its size. -/
theorem subIndex_mod_iff (hmn : m < n) (hn : n ≤ boundary m) :
    subIndex p m % 2 ^ (boundary m - n) = 0 ↔ p.AlignedAt n := by
  have hk : boundary m - n ≤ subBits m := by
    rw [boundary] at *
    omega
  rw [subIndex_eq_window, window_mod_eq_zero_iff _ hk]
  have hend : m + subBits m = boundary m := rfl
  have hstart : boundary m - (boundary m - n) = n := by omega
  rw [hend, hstart]
  by_cases hbound : n = boundary m
  · subst hbound
    constructor
    · intro _
      exact of_boundary p m
    · intro _ k hk hk'
      omega
  · have hlt : n < boundary m := lt_of_le_of_ne hn hbound
    have hmod : n % 4 ≠ 0 := by
      rw [boundary_eq] at hlt
      omega
    rw [AlignedAt, boundary_of_lt (le_of_lt hmn) hlt]
    exact ⟨.inr, fun h => h.resolve_left hmod⟩

/-- An address of the block points into the run exactly when it shares the prefix. -/
theorem mem_run_iff (h : p.AlignedAt n) (hmn : m < n) (hn : n ≤ boundary m)
    (ha : Agree m p.stream a) :
    subIndex p m ≤ window a m (subBits m) ∧
        window a m (subBits m) < subIndex p m + 2 ^ (boundary m - n) ↔
      Agree n p.stream a := by
  rw [mem_run_iff_div_eq (Nat.pow_pos (by norm_num)) ((subIndex_mod_iff hmn hn).2 h),
    subIndex_eq_window, Shape.window_div_iff ha.symm (le_of_lt hmn) hn]
  exact ⟨Agree.symm, Agree.symm⟩

/-- Within the run, the index of an address is its index in a block of length `n` on top of the
start of the run. -/
theorem subIndex_add_window (h : p.AlignedAt n) (hmn : m < n) (hn : n < boundary m)
    (ha : Agree n p.stream a) : subIndex p m + window a n (subBits n) = window a m (subBits m) := by
  have hbound := boundary_of_lt (le_of_lt hmn) hn
  have hsub : boundary m - n = subBits n := by
    rw [← hbound, boundary]
    omega
  have hk : subBits n ≤ subBits m := by
    rw [← hsub, boundary]
    omega
  have hlow : window a m (subBits m) % 2 ^ subBits n = window a n (subBits n) := by
    have hstart : m + subBits m - subBits n = n := by
      rw [boundary] at *
      omega
    rw [window_mod a hk, hstart]
  have hhigh : window a m (subBits m) / 2 ^ subBits n = subIndex p m / 2 ^ subBits n := by
    rw [← hsub, subIndex_eq_window]
    exact (Shape.window_div_iff (ha.mono (le_of_lt hmn)).symm (le_of_lt hmn)
      (le_of_lt hn)).2 ha.symm
  have hmod := (subIndex_mod_iff hmn (le_of_lt hn)).2 h
  rw [hsub] at hmod
  rw [← Nat.div_add_mod (window a m (subBits m)) (2 ^ subBits n), hlow, hhigh,
    Nat.mul_div_cancel' (Nat.dvd_of_mod_eq_zero hmod)]

lemma run_end_le (h : p.AlignedAt n) (hmn : m < n) (hn : n ≤ boundary m) :
    subIndex p m + 2 ^ (boundary m - n) ≤ 2 ^ subBits m := by
  have hmod := (subIndex_mod_iff hmn hn).2 h
  have hlt : subIndex p m < 2 ^ subBits m := by
    rw [subIndex_eq_window]
    exact window_lt _ _ _
  have hk : boundary m - n ≤ subBits m := by
    rw [boundary] at *
    omega
  obtain ⟨q, hq⟩ := Nat.dvd_of_mod_eq_zero hmod
  obtain ⟨e, he⟩ : 2 ^ (boundary m - n) ∣ 2 ^ subBits m := Nat.pow_dvd_pow 2 hk
  rw [hq, he] at hlt ⊢
  have hqe : q + 1 ≤ e := Nat.lt_of_mul_lt_mul_left hlt
  calc 2 ^ (boundary m - n) * q + 2 ^ (boundary m - n)
      = 2 ^ (boundary m - n) * (q + 1) := (Nat.mul_succ _ _).symm
    _ ≤ 2 ^ (boundary m - n) * e := Nat.mul_le_mul_left _ hqe

end InetPrefix.AlignedAt

end Inet
end Unameit
