import Unameit.Lib.BitPrefix

/-!
# PrefixTree — trees of blocks that partition an address space by prefixes

A `Layout` gives every block a length, a parent, and for every address the child met by that
address.  A relation `T` between blocks and addresses is a `Cover` of the layout when it is the
relation "the address lies in the block".  The blocks that hold one address form a chain.

Such a tree changes in three ways: a new block takes over part of a block's children
(`Cover.graft`), a set of blocks closed under going down is removed (`Cover.prune`), or one block is
removed and its children move to its parent (`Cover.splice`).  The hypotheses only speak about
addresses that lie in the block concerned.
-/

namespace Unameit

open Option

/-- Addresses that can be compared by their first `n` bits. -/
class PrefixSpace (A : Type*) where
  agree : ℕ → A → A → Prop
  refl : ∀ n a, agree n a a
  symm : ∀ {n a b}, agree n a b → agree n b a
  trans : ∀ {n a b c}, agree n a b → agree n b c → agree n a c
  mono : ∀ {m n a b}, m ≤ n → agree n a b → agree m a b

instance : PrefixSpace BitStream where
  agree := BitStream.Agree
  refl := BitStream.Agree.refl
  symm := BitStream.Agree.symm
  trans := BitStream.Agree.trans
  mono := fun hmn h => BitStream.Agree.mono h hmn

/-- The data of a prefix tree: blocks `B` over addresses `A`. -/
structure Layout (B A : Type*) where
  root : B
  len : B → ℕ
  parent : B → Option B
  child : B → A → Option B

variable {B A : Type*}

/-- `c` is a longest block with property `P`. -/
def Deepest (len : B → ℕ) (P : B → Prop) (c : B) : Prop :=
  P c ∧ ∀ c', P c' → len c' ≤ len c

variable [PrefixSpace A]

open PrefixSpace (agree)

/-- `T b a` says that address `a` lies in block `b` of the tree. -/
structure Cover (L : Layout B A) (T : B → A → Prop) : Prop where
  root_len : L.len L.root = 0
  root_mem : ∀ a, T L.root a
  agree_of_mem : ∀ {b a a'}, T b a → T b a' → agree (L.len b) a a'
  mem_of_agree : ∀ {b a a'}, T b a → agree (L.len b) a a' → T b a'
  child_mem : ∀ {b a s}, T b a → L.child b a = some s →
    T s a ∧ L.parent s = some b ∧ L.len b < L.len s
  parent_of_mem : ∀ {s a}, T s a → s ≠ L.root →
    ∃ b, L.parent s = some b ∧ T b a ∧ L.child b a = some s

variable {s b c : B} {a a' p : A} {n : ℕ}

namespace Cover

variable {L L' : Layout B A} {T : B → A → Prop}

section

variable (h : Cover L T)

include h

lemma ne_root_of_pos (hs : 0 < L.len s) : s ≠ L.root := by
  rintro rfl
  rw [h.root_len] at hs
  exact lt_irrefl 0 hs

lemma eq_root_of_len_eq_zero (hs : T s a) (h0 : L.len s = 0) : s = L.root := by
  by_contra hne
  obtain ⟨b, _, hb, hchild⟩ := h.parent_of_mem hs hne
  have hlt := (h.child_mem hb hchild).2.2
  omega

lemma mem_iff_agree (hb : T b a) : T b a' ↔ agree (L.len b) a a' :=
  ⟨h.agree_of_mem hb, h.mem_of_agree hb⟩

/-! ## The chain of blocks that hold one address -/

/-- The `k`-th block met on the way down from the root at address `a`. -/
def descent (L : Layout B A) (a : A) : ℕ → Option B
  | 0 => some L.root
  | k + 1 => (descent L a k).bind fun b => L.child b a

lemma descent_mem (a : A) {k : ℕ} (hk : descent L a k = some c) : T c a := by
  induction k generalizing c with
  | zero =>
    cases hk
    exact h.root_mem a
  | succ k ih =>
    obtain ⟨b, hb, hchild⟩ := bind_eq_some_iff.1 hk
    exact (h.child_mem (ih hb) hchild).1

lemma exists_descent (hc : T c a) : ∃ k, descent L a k = some c := by
  induction hn : L.len c using Nat.strong_induction_on generalizing c with
  | h n ih =>
    by_cases hroot : c = L.root
    · exact ⟨0, by rw [hroot]; rfl⟩
    · obtain ⟨b, _, hb, hchild⟩ := h.parent_of_mem hc hroot
      have hlt := (h.child_mem hb hchild).2.2
      obtain ⟨k, hk⟩ := ih (L.len b) (hn ▸ hlt) hb rfl
      exact ⟨k + 1, by simp [descent, hk, hchild]⟩

lemma descent_len_lt {i d : ℕ} (hb : descent L a i = some b)
    (hc : descent L a (i + d + 1) = some c) : L.len b < L.len c := by
  induction d generalizing c with
  | zero =>
    have hchild : L.child b a = some c := by simpa [descent, hb] using hc
    exact (h.child_mem (h.descent_mem a hb) hchild).2.2
  | succ d ih =>
    obtain ⟨e, he, hchild⟩ := bind_eq_some_iff.1 hc
    have hlt := (h.child_mem (h.descent_mem a he) hchild).2.2
    exact lt_trans (ih he) hlt

/-- At most one block of each length holds a given address. -/
theorem unique (hb : T b a) (hc : T c a) (hlen : L.len b = L.len c) : b = c := by
  obtain ⟨i, hi⟩ := h.exists_descent hb
  obtain ⟨j, hj⟩ := h.exists_descent hc
  rcases Nat.lt_trichotomy i j with hij | rfl | hij
  · obtain ⟨d, rfl⟩ := Nat.exists_eq_add_of_lt hij
    have := h.descent_len_lt hi hj
    omega
  · exact some.inj (hi.symm.trans hj)
  · obtain ⟨d, rfl⟩ := Nat.exists_eq_add_of_lt hij
    have := h.descent_len_lt hj hi
    omega

/-- Below a block that is not the longest one, the next block of the chain is its child. -/
theorem exists_child_of_lt (hb : T b a) (hc : T c a) (hlt : L.len b < L.len c) :
    ∃ s, L.child b a = some s ∧ T s a ∧ L.len s ≤ L.len c := by
  obtain ⟨i, hi⟩ := h.exists_descent hb
  obtain ⟨j, hj⟩ := h.exists_descent hc
  have hij : i < j := by
    rcases Nat.lt_trichotomy i j with hij | rfl | hij
    · exact hij
    · cases some.inj (hi.symm.trans hj)
      exact absurd hlt (lt_irrefl _)
    · obtain ⟨d, rfl⟩ := Nat.exists_eq_add_of_lt hij
      have := h.descent_len_lt hj hi
      omega
  obtain ⟨d, rfl⟩ := Nat.exists_eq_add_of_lt hij
  clear hij
  induction d generalizing c with
  | zero =>
    have hchild : L.child b a = some c := by simpa [descent, hi] using hj
    exact ⟨c, hchild, hc, le_refl _⟩
  | succ d ih =>
    obtain ⟨e, he, hchild⟩ := bind_eq_some_iff.1 hj
    have hemem := h.descent_mem a he
    have helt := (h.child_mem hemem hchild).2.2
    obtain ⟨s, hs, hsmem, hsle⟩ := ih hemem (h.descent_len_lt hi he) he
    exact ⟨s, hs, hsmem, by omega⟩

/-- A block whose child at `a` is longer than `n` is the longest of length at most `n`. -/
theorem le_of_blocked (hb : T b a) (hblock : ∀ s, L.child b a = some s → n < L.len s) (hc : T c a)
    (hcn : L.len c ≤ n) : L.len c ≤ L.len b := by
  by_contra hlt
  obtain ⟨s, hs, _, hsle⟩ := h.exists_child_of_lt hb hc (Nat.lt_of_not_le hlt)
  have := hblock s hs
  omega

lemma len_le_parent (hs : T s a) (hc : T c a) (hparent : L.parent s = some b) (hroot : s ≠ L.root)
    (hlt : L.len c < L.len s) : L.len c ≤ L.len b := by
  obtain ⟨b', hb', hmem, hchild⟩ := h.parent_of_mem hs hroot
  obtain rfl : b' = b := some.inj (hb'.symm.trans hparent)
  refine h.le_of_blocked (n := L.len s - 1) hmem ?_ hc (by omega)
  intro s' hs'
  obtain rfl : s = s' := some.inj (hchild.symm.trans hs')
  omega

lemma mem_of_le (hb : T b a) (hc : T c a) (hle : L.len b ≤ L.len c) (hc' : T c a') : T b a' :=
  h.mem_of_agree hb (PrefixSpace.mono hle (h.agree_of_mem hc hc'))

/-! ## The three ways a tree changes -/

/-- A child of `b` met inside the prefix of length `n` at `p` is longer than `n`. -/
theorem len_lt_of_child (hb : T b p) (hbn : L.len b < n)
    (hblock : ∀ s, L.child b p = some s → n < L.len s) (ha : agree n p a)
    (hs : L.child b a = some s) : n < L.len s := by
  have hba : T b a := h.mem_of_agree hb (PrefixSpace.mono (le_of_lt hbn) ha)
  rcases h.child_mem hba hs with ⟨hsa, hparent, hlt⟩
  by_contra hle
  -- A short child would also be met at `p`, where `hblock` excludes it.
  have hsp : T s p :=
    h.mem_of_agree hsa (PrefixSpace.mono (Nat.le_of_not_lt hle) (PrefixSpace.symm ha))
  rcases h.parent_of_mem hsp (h.ne_root_of_pos (by omega)) with ⟨b', hb', _, hchild⟩
  have hbb : b' = b := some.inj (hb'.symm.trans hparent)
  exact hle (hblock s (hbb ▸ hchild))

/-- A new block `m` of length `n` at `p` takes over the children of `b` inside its prefix. -/
theorem graft {m : B} (hroot : L'.root = L.root) (hlen : ∀ c a, T c a → L'.len c = L.len c)
    (hlen_new : L'.len m = n) (hb : T b p) (hbn : L.len b < n)
    (hblock : ∀ s, L.child b p = some s → n < L.len s) (hfresh : ∀ a, ¬ T m a)
    (hparent_new : L'.parent m = some b)
    (hchild_new : ∀ a, agree n p a → L'.child m a = L.child b a)
    (hchild_in : ∀ a, agree n p a → L'.child b a = some m)
    (hchild_out : ∀ a, T b a → ¬ agree n p a → L'.child b a = L.child b a)
    (hchild : ∀ c a, T c a → c ≠ b → L'.child c a = L.child c a)
    (hparent_in : ∀ s a, agree n p a → L.child b a = some s → L'.parent s = some m)
    (hparent_out : ∀ s a, T s a → (∀ a', agree n p a' → L.child b a' ≠ some s) →
      L'.parent s = L.parent s) : Cover L' (fun c a => T c a ∨ (c = m ∧ agree n p a)) := by
  have hbzone : ∀ a, agree n p a → T b a := fun a ha =>
    h.mem_of_agree hb (PrefixSpace.mono (le_of_lt hbn) ha)
  -- A child of `b` outside the prefix stays outside it at every address.
  have hout : ∀ s a, T b a → L.child b a = some s → ¬ agree n p a →
      ∀ a', agree n p a' → L.child b a' ≠ some s := by
    intro s a hba hs hna a' ha' hs'
    have hn := h.len_lt_of_child hb hbn hblock ha' hs'
    have hsa := (h.child_mem hba hs).1
    have hsa' := (h.child_mem (hbzone a' ha') hs').1
    exact hna (PrefixSpace.trans ha'
      (PrefixSpace.mono (le_of_lt hn) (h.agree_of_mem hsa' hsa)))
  have hother : ∀ c s a, T c a → c ≠ b → L.child c a = some s →
      ∀ a', agree n p a' → L.child b a' ≠ some s := by
    intro c s a hc hcb hs a' ha' hs'
    have hpc := (h.child_mem hc hs).2.1
    have hpb := (h.child_mem (hbzone a' ha') hs').2.1
    exact hcb (some.inj (hpc.symm.trans hpb))
  refine
    { root_len := ?_
      root_mem := ?_
      agree_of_mem := ?_
      mem_of_agree := ?_
      child_mem := ?_
      parent_of_mem := ?_ }
  · rw [hroot, hlen _ p (h.root_mem p), h.root_len]
  · intro a
    exact .inl (hroot ▸ h.root_mem a)
  · rintro c a a' (hc | ⟨rfl, ha⟩) (hc' | ⟨hcm, ha'⟩)
    · rw [hlen c a hc]
      exact h.agree_of_mem hc hc'
    · exact absurd (hcm ▸ hc) (hfresh a)
    · exact absurd hc' (hfresh a')
    · rw [hlen_new]
      exact PrefixSpace.trans (PrefixSpace.symm ha) ha'
  · rintro c a a' (hc | ⟨rfl, ha⟩) hag
    · rw [hlen c a hc] at hag
      exact .inl (h.mem_of_agree hc hag)
    · rw [hlen_new] at hag
      exact .inr ⟨rfl, PrefixSpace.trans ha hag⟩
  · rintro c a s (hc | ⟨rfl, ha⟩) hs
    · by_cases hcb : c = b
      · subst hcb
        by_cases ha : agree n p a
        · obtain rfl : m = s := some.inj ((hchild_in a ha).symm.trans hs)
          refine ⟨.inr ⟨rfl, ha⟩, hparent_new, ?_⟩
          rw [hlen_new, hlen c a hc]
          exact hbn
        · rw [hchild_out a hc ha] at hs
          rcases h.child_mem hc hs with ⟨hsa, hparent, hlt⟩
          refine ⟨.inl hsa, ?_, ?_⟩
          · rw [hparent_out s a hsa (hout s a hc hs ha)]
            exact hparent
          · rw [hlen c a hc, hlen s a hsa]
            exact hlt
      · rw [hchild c a hc hcb] at hs
        rcases h.child_mem hc hs with ⟨hsa, hparent, hlt⟩
        refine ⟨.inl hsa, ?_, ?_⟩
        · rw [hparent_out s a hsa (hother c s a hc hcb hs)]
          exact hparent
        · rw [hlen c a hc, hlen s a hsa]
          exact hlt
    · rw [hchild_new a ha] at hs
      have hsa := (h.child_mem (hbzone a ha) hs).1
      refine ⟨.inl hsa, hparent_in s a ha hs, ?_⟩
      rw [hlen_new, hlen s a hsa]
      exact h.len_lt_of_child hb hbn hblock ha hs
  · rintro s a (hs | ⟨rfl, ha⟩) hne
    · rcases h.parent_of_mem hs (hroot ▸ hne) with ⟨c, hparent, hc, hchild'⟩
      by_cases hcb : c = b
      · subst hcb
        by_cases ha : agree n p a
        · refine ⟨m, hparent_in s a ha hchild', .inr ⟨rfl, ha⟩, ?_⟩
          rw [hchild_new a ha]
          exact hchild'
        · refine ⟨c, ?_, .inl hc, ?_⟩
          · rw [hparent_out s a hs (hout s a hc hchild' ha)]
            exact hparent
          · rw [hchild_out a hc ha]
            exact hchild'
      · refine ⟨c, ?_, .inl hc, ?_⟩
        · rw [hparent_out s a hs (hother c s a hc hcb hchild')]
          exact hparent
        · rw [hchild c a hc hcb]
          exact hchild'
    · exact ⟨b, hparent_new, .inl (hbzone a ha), hchild_in a ha⟩

/-- A set of blocks that is closed under going down is removed. -/
theorem prune {F : B → Prop} (a₀ : A) (hroot : L'.root = L.root) (hFroot : ¬ F L.root)
    (hlen : ∀ c a, T c a → ¬ F c → L'.len c = L.len c)
    (hparent : ∀ c a, T c a → ¬ F c → L'.parent c = L.parent c)
    (hclosed : ∀ c s a, T c a → F c → L.child c a = some s → F s)
    (hkeep : ∀ c s a, T c a → ¬ F c → L.child c a = some s → ¬ F s → L'.child c a = some s)
    (hdrop : ∀ c s a, T c a → ¬ F c → L'.child c a = some s → L.child c a = some s ∧ ¬ F s) :
    Cover L' (fun c a => T c a ∧ ¬ F c) := by
  refine
    { root_len := ?_
      root_mem := ?_
      agree_of_mem := ?_
      mem_of_agree := ?_
      child_mem := ?_
      parent_of_mem := ?_ }
  · rw [hroot, hlen _ a₀ (h.root_mem a₀) hFroot, h.root_len]
  · intro a
    rw [hroot]
    exact ⟨h.root_mem a, hFroot⟩
  · rintro c a a' ⟨hc, hF⟩ ⟨hc', _⟩
    rw [hlen c a hc hF]
    exact h.agree_of_mem hc hc'
  · rintro c a a' ⟨hc, hF⟩ hag
    rw [hlen c a hc hF] at hag
    exact ⟨h.mem_of_agree hc hag, hF⟩
  · rintro c a s ⟨hc, hF⟩ hs
    rcases hdrop c s a hc hF hs with ⟨hs', hFs⟩
    rcases h.child_mem hc hs' with ⟨hsa, hp, hlt⟩
    refine ⟨⟨hsa, hFs⟩, ?_, ?_⟩
    · rw [hparent s a hsa hFs]
      exact hp
    · rw [hlen c a hc hF, hlen s a hsa hFs]
      exact hlt
  · rintro s a ⟨hs, hFs⟩ hne
    rcases h.parent_of_mem hs (hroot ▸ hne) with ⟨c, hp, hc, hchild⟩
    have hFc : ¬ F c := fun hFc => hFs (hclosed c s a hc hFc hchild)
    refine ⟨c, ?_, ⟨hc, hFc⟩, hkeep c s a hc hFc hchild hFs⟩
    rw [hparent s a hs hFs]
    exact hp

/-- The block `u` is removed and its children move to its parent `b`. -/
theorem splice {u : B} {a₀ : A} (hroot : L'.root = L.root) (hu : T u a₀) (hur : u ≠ L.root)
    (hub : L.parent u = some b) (hlen : ∀ c a, T c a → c ≠ u → L'.len c = L.len c)
    (hchild_in : ∀ a, T u a → L'.child b a = L.child u a)
    (hchild_out : ∀ a, T b a → ¬ T u a → L'.child b a = L.child b a)
    (hchild : ∀ c a, T c a → c ≠ b → c ≠ u → L'.child c a = L.child c a)
    (hparent_in : ∀ s a, T u a → L.child u a = some s → L'.parent s = some b)
    (hparent_out : ∀ s a, T s a → L.parent s ≠ some u → L'.parent s = L.parent s) :
    Cover L' (fun c a => T c a ∧ c ≠ u) := by
  have hparent : ∀ a, T u a → T b a ∧ L.child b a = some u ∧ L.len b < L.len u := by
    intro a ha
    rcases h.parent_of_mem ha hur with ⟨b', hb', hmem, hch⟩
    obtain rfl : b' = b := some.inj (hb'.symm.trans hub)
    exact ⟨hmem, hch, (h.child_mem hmem hch).2.2⟩
  have hbu : b ≠ u := by
    rintro rfl
    exact lt_irrefl _ (hparent a₀ hu).2.2
  refine
    { root_len := ?_
      root_mem := ?_
      agree_of_mem := ?_
      mem_of_agree := ?_
      child_mem := ?_
      parent_of_mem := ?_ }
  · rw [hroot, hlen _ a₀ (h.root_mem a₀) (Ne.symm hur), h.root_len]
  · intro a
    rw [hroot]
    exact ⟨h.root_mem a, Ne.symm hur⟩
  · rintro c a a' ⟨hc, hcu⟩ ⟨hc', _⟩
    rw [hlen c a hc hcu]
    exact h.agree_of_mem hc hc'
  · rintro c a a' ⟨hc, hcu⟩ hag
    rw [hlen c a hc hcu] at hag
    exact ⟨h.mem_of_agree hc hag, hcu⟩
  · rintro c a s ⟨hc, hcu⟩ hs
    by_cases hcb : c = b
    · subst hcb
      by_cases ha : T u a
      · rw [hchild_in a ha] at hs
        rcases h.child_mem ha hs with ⟨hsa, hp, hlt⟩
        have hsu : s ≠ u := by
          rintro rfl
          exact lt_irrefl _ hlt
        refine ⟨⟨hsa, hsu⟩, hparent_in s a ha hs, ?_⟩
        rw [hlen c a hc hcu, hlen s a hsa hsu]
        exact lt_trans (hparent a ha).2.2 hlt
      · rw [hchild_out a hc ha] at hs
        rcases h.child_mem hc hs with ⟨hsa, hp, hlt⟩
        have hsu : s ≠ u := by
          rintro rfl
          exact ha hsa
        refine ⟨⟨hsa, hsu⟩, ?_, ?_⟩
        · rw [hparent_out s a hsa (by simpa [hp] using hcu)]
          exact hp
        · rw [hlen c a hc hcu, hlen s a hsa hsu]
          exact hlt
    · rw [hchild c a hc hcb hcu] at hs
      rcases h.child_mem hc hs with ⟨hsa, hp, hlt⟩
      have hsu : s ≠ u := by
        rintro rfl
        exact hcb (some.inj (hp.symm.trans hub))
      refine ⟨⟨hsa, hsu⟩, ?_, ?_⟩
      · rw [hparent_out s a hsa (by simpa [hp] using hcu)]
        exact hp
      · rw [hlen c a hc hcu, hlen s a hsa hsu]
        exact hlt
  · rintro s a ⟨hs, hsu⟩ hne
    rcases h.parent_of_mem hs (hroot ▸ hne) with ⟨c, hp, hc, hch⟩
    by_cases hcu : c = u
    · subst hcu
      refine ⟨b, hparent_in s a hc hch, ⟨(hparent a hc).1, hbu⟩, ?_⟩
      rw [hchild_in a hc]
      exact hch
    · have hp' : L'.parent s = L.parent s := hparent_out s a hs (by simpa [hp] using hcu)
      refine ⟨c, hp'.trans hp, ⟨hc, hcu⟩, ?_⟩
      by_cases hcb : c = b
      · subst hcb
        have hua : ¬ T u a := by
          intro hua
          exact hsu (some.inj (hch.symm.trans (hparent a hua).2.1))
        rw [hchild_out a hc hua]
        exact hch
      · rw [hchild c a hc hcb hcu]
        exact hch

end

end Cover
end Unameit
