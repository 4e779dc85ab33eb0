import Unameit.Inet.AutoNet
import Unameit.Lib.Loops

/-!
# Inet.Choice — which prefix the search prefers

`Inet_Auto_Net` visits the vacant prefixes of a net in ascending order and keeps one of them: the
first prefix of the net only as long as there is no other one that needs as few bits, otherwise one
that needs the fewest bits, and the last prefix of the net only if there is no other one but the
first.  `Scan` is what holds at any time
between the prefixes that have been visited and the one that is kept; every call of `Inet_Auto_Net`
carries it on over the prefixes of its block (`inetAutoNet_chooses`).
-/

namespace Unameit
namespace Inet

open HoleSeq (nth)
open BitStream

/-! ## The state of the search -/

def Busy (want m : ℕ) (x : BitStream) : Prop :=
  ∃ k, m ≤ k ∧ k < want ∧ x k = true

def Ones (want m : ℕ) (x : BitStream) : Prop :=
  ∀ k, m ≤ k → k < want → x k = true

/-- There are no blocks inside the block of `want` bits at `x`, and neither nets nor ranges on the
blocks above it that are longer than `base`. -/
def Open (t : Tree) (T : Coverage) (want base : ℕ) (x : BitStream) : Prop :=
  ∀ d y, T d y → Agree want x y →
    t.bits d < want ∧ (base < t.bits d → t.items .net d = [] ∧ t.items .range d = [])

/-- The prefixes `V` have been visited, and the one at `g` is kept; its length is that of `p`. -/
structure Scan (want base : ℕ) (V : BitStream → Prop) (best : InetBest) (p : InetPrefix)
    (g : BitStream) : Prop where
  bits_le : best ≠ .noneBest → p.bits ≤ want
  empty : best = .noneBest → ∀ x, ¬ V x
  clean : best ≠ .otherBest → ∀ k, base ≤ k → p.stream k = false
  first : best = .zeroBest → (∀ k, base ≤ k → k < want → g k = false) ∧ base < p.bits ∧
    (∀ x, Agree p.bits x g → V x) ∧ ∀ x, V x → Busy want base x → Busy want p.bits x
  other : best = .otherBest → V g ∧ Busy want base g ∧
    (∀ x, V x → Busy want base x → Busy want (p.bits - 1) x) ∧
    (Ones want base g → ∀ x, V x → Busy want base x → Agree want x g)

def Better (best : InetBest) (bits cmp : ℕ) : Prop :=
  cmp < bits ∨ best = .noneBest ∨ (best = .zeroBest ∧ cmp = bits)

variable {want base : ℕ} {V V' : BitStream → Prop} {best : InetBest} {p p' : InetPrefix}
  {g g' : BitStream}

variable {m n cmp l : ℕ} {x : BitStream}

lemma Busy.mono (h : Busy want n x) (hmn : m ≤ n) : Busy want m x := by
  rcases h with ⟨k, hk, hlt, hx⟩
  exact ⟨k, by omega, hlt, hx⟩

namespace Scan

lemma congr (h : Scan want base V best p g) (hV : ∀ x, V' x ↔ V x) :
    Scan want base V' best p g := by
  have hsame : V' = V := funext fun x => propext (hV x)
  rw [hsame]
  exact h

/-- The first prefix of the net is accepted when nothing has been found before. -/
theorem accept_first (h : Scan want base V .noneBest p g) {e : ℕ} (hlt : base < e) (hle : e ≤ want)
    (hzero : ∀ k, base ≤ k → k < want → g' k = false) (hbits : p'.bits = e)
    (hclean : ∀ k, base ≤ k → p'.stream k = false) :
    Scan want base (fun x => V x ∨ Agree e x g') .zeroBest p' g' := by
  refine ⟨fun _ => by omega, nofun, fun _ => hclean, fun _ => ⟨hzero, by omega, ?_, ?_⟩,
    nofun⟩
  · intro x hx
    exact .inr (hbits ▸ hx)
  · rintro x (hx | hx) ⟨k, hk, hkw, hbit⟩
    · exact absurd hx (h.empty rfl x)
    · refine ⟨k, ?_, hkw, hbit⟩
      by_contra hke
      rw [hx k (by omega), hzero k hk hkw] at hbit
      cases hbit

/-- Another prefix is accepted: it is the last one of the net only if no other one but the first
has been visited. -/
theorem accept_other (h : Scan want base V best p g) {e : ℕ} (hlt : base < cmp) (hcmp : cmp ≤ e)
    (hle : e ≤ want) (hbit : g' (cmp - 1) = true) (hclear : ∀ k, cmp ≤ k → g' k = false)
    (haccept : Better best p.bits cmp) (hbits : p'.bits = cmp) :
    Scan want base (fun x => V x ∨ Agree e x g') .otherBest p' g' := by
  refine ⟨fun _ => by omega, nofun, fun hn => absurd rfl hn,
    nofun, fun _ => ⟨.inr (Agree.refl _ _), ⟨cmp - 1, by omega, by omega, hbit⟩, ?_,
      fun hones => ?_⟩⟩
  · rintro x (hx | hx) hbusy
    · rcases haccept with hless | hnone | ⟨hzero, heq⟩
      · have hlow : Busy want (p.bits - 1) x := by
          cases hbest : best with
          | noneBest => exact absurd hx (h.empty hbest x)
          | zeroBest => exact ((h.first hbest).2.2.2 x hx hbusy).mono (by omega)
          | otherBest => exact (h.other hbest).2.2.1 x hx hbusy
        exact hlow.mono (by omega)
      · exact absurd hx (h.empty hnone x)
      · exact ((h.first hzero).2.2.2 x hx hbusy).mono (by omega)
    · exact ⟨cmp - 1, by omega, by omega, (hx (cmp - 1) (by omega)).trans hbit⟩
  have hfull : cmp = want := by
    by_contra hne
    have hone := hones cmp (by omega) (by omega)
    rw [hclear cmp (le_refl _)] at hone
    cases hone
  rintro x (hx | hx) hbusy
  · -- Whatever was kept before, there is nothing that it could have been.
    exfalso
    rcases haccept with hless | hnone | ⟨hzero, heq⟩
    · by_cases hn : best = .noneBest
      · exact h.empty hn x hx
      · have := h.bits_le hn
        omega
    · exact h.empty hnone x hx
    · rcases (h.first hzero).2.2.2 x hx hbusy with ⟨k, hk, hkw, _⟩
      omega
  · exact hx.mono (by omega)

lemma reject (h : Scan want base V best p g) (hfresh : ∀ x, V x → ¬ Ones want base x) {e : ℕ}
    (hlt : base < cmp) (hcmp : cmp ≤ e) (hle : e ≤ want) (hbit : g' (cmp - 1) = true)
    (hreject : ¬ Better best p.bits cmp) :
    Scan want base (fun x => V x ∨ Agree e x g') best p g := by
  have hn : best ≠ .noneBest := fun hn => hreject (.inr (.inl hn))
  refine ⟨h.bits_le, fun hc => absurd hc hn, h.clean, fun hzero => ?_, fun hother => ?_⟩
  · rcases h.first hzero with ⟨hg, hpos, hin, hbusy⟩
    refine ⟨hg, hpos, fun x hx => .inl (hin x hx), ?_⟩
    rintro x (hx | hx) hb
    · exact hbusy x hx hb
    · have hge : ¬ cmp < p.bits := fun hc => hreject (.inl hc)
      have hne : cmp ≠ p.bits := fun hc => hreject (.inr (.inr ⟨hzero, hc⟩))
      exact ⟨cmp - 1, by omega, by omega, (hx (cmp - 1) (by omega)).trans hbit⟩
  · rcases h.other hother with ⟨hg, hb, hleast, _⟩
    refine ⟨.inl hg, hb, ?_, fun hones => absurd hones (hfresh g hg)⟩
    rintro x (hx | hx) hb'
    · exact hleast x hx hb'
    · have hge : ¬ cmp < p.bits := fun hc => hreject (.inl hc)
      exact ⟨cmp - 1, by omega, by omega, (hx (cmp - 1) (by omega)).trans hbit⟩

/-- Bits are written into the prefix: off as long as only the first prefix has been found. -/
theorem write (h : Scan want base V best p g) (hbits : p'.bits = p.bits)
    (hclean : best ≠ .otherBest → ∀ k, base ≤ k → p.stream k = false → p'.stream k = false) :
    Scan want base V best p' g := by
  refine ⟨?_, h.empty, fun hn k hk => hclean hn k hk (h.clean hn k hk), ?_, ?_⟩
  · rw [hbits]
    exact h.bits_le
  · rw [hbits]
    exact h.first
  · rw [hbits]
    exact h.other

end Scan

/-! ## Calls -/

def InetBest.or (result best : InetBest) : InetBest :=
  if result = .noneBest then best else result

structure LeftBits (base : ℕ) (a : BitStream) (n left : ℕ) : Prop where
  ge : base ≤ left
  le : left ≤ n
  clear : ∀ k, left ≤ k → k < n → a k = false
  bit : left ≠ base → a (left - 1) = true

structure Written (want n : ℕ) (a : BitStream) (p p' : InetPrefix) (g : BitStream) : Prop where
  length : p'.octets.length = p.octets.length
  above : ∀ k, k < n → p'.stream k = p.stream k
  inside : Agree n g a
  stream : ∀ k, n ≤ k → k < p'.bits → p'.stream k = g k
  clear : ∀ k, p'.bits ≤ k → k < want → g k = false

def Wrote (want base n left : ℕ) (a : BitStream) (p : InetPrefix) (g : BitStream)
    (result : InetBest) (p' : InetPrefix) (g' : BitStream) : Prop :=
  (result = .noneBest ∧ p' = p ∧ g' = g) ∨
    (result ≠ .noneBest ∧ (result = .zeroBest → left = base) ∧ Written want n a p p' g')

def Clear (t : Tree) (T : Coverage) (base n : ℕ) (a : BitStream) : Prop :=
  ∀ {d}, T d a → base < t.bits d → t.bits d ≤ n → t.items .net d = [] ∧ t.items .range d = []

structure CallAt (fam : Family) (t : Tree) (T : Coverage) (want base : ℕ)
    (V : BitStream → Prop) (best : InetBest) (p : InetPrefix) (left : ℕ) (c : DbObject)
    (a : BitStream) : Prop where
  mem : T c a
  lt : t.bits c < want
  length : p.octets.length = fam.octets
  leftBits : LeftBits base a (t.bits c) left
  none : left = base → best = .noneBest
  clear : Clear t T base (t.bits c) a
  fresh : ∀ x, V x → ¬ Ones want base x

def Chooses (fam : Family) (t : Tree) (T : Coverage) (want base : ℕ)
    (visit : InetPrefix → InetBlock → InetBest → ℕ → Except Failure (InetBest × InetPrefix))
    (c : DbObject) : Prop :=
  ∀ {V best p left a g}, CallAt fam t T want base V best p left c a → Scan want base V best p g →
    ∃ result p' g', visit p ⟨t.bits c, c⟩ best left = .ok (result, p') ∧
      Scan want base (fun x => V x ∨ (Agree (t.bits c) x a ∧ Open t T want base x))
        (result.or best) p' g' ∧
      Wrote want base (t.bits c) left a p g result p' g'

/-! ## Groups of indices -/

variable {fam : Family} {t : Tree} {r c o : DbObject} {T : Coverage}
  {a : BitStream} {i : ℕ}

section Groups

variable {e : ℕ}

/-- The prefixes up to the end of the group at index `i`. -/
theorem window_lt_add_iff (hag : Agree n x a) (hne : n ≤ e) (he : e ≤ boundary n)
    (hi : i < 2 ^ subBits n) (hmod : i % 2 ^ (boundary n - e) = 0) :
    window x n (subBits n) < i + 2 ^ (boundary n - e) ↔
      window x n (subBits n) < i ∨ Agree e x (splice a n (subBits n) i) := by
  have hsame : Agree n x (splice a n (subBits n) i) :=
    hag.trans (splice_agree a _ _ i).symm
  rw [← Shape.window_div_iff hsame hne he, window_splice a _ _ hi,
    ← mem_run_iff_div_eq (Nat.pow_pos (by norm_num)) hmod]
  omega

/-- The prefix at the last index has all its bits on. -/
theorem not_ones_of_window_lt (hbase : base ≤ n) (hne : n ≤ e) (he : e ≤ boundary n)
    (hwant : e ≤ want) (hi : i + 2 ^ (boundary n - e) ≤ 2 ^ subBits n)
    (hlt : window x n (subBits n) < i) : ¬ Ones want base x := by
  intro hones
  have hbound : boundary n = n + subBits n := rfl
  have hones' : Agree e x (splice x n (subBits n) (2 ^ subBits n - 1)) := by
    refine Agree.extend (splice_agree x _ _ _).symm fun k hk hke => ?_
    rw [splice_of_ge x _ hk, Nat.testBit_two_pow_sub_one, hones k (by omega) (by omega)]
    simp only [Bool.true_eq, Bool.and_eq_true, decide_eq_true_eq]
    omega
  have hpow : 0 < 2 ^ subBits n := Nat.pow_pos (by norm_num)
  have hdiv := (Shape.window_div_iff (splice_agree x _ _ (2 ^ subBits n - 1)).symm hne
    he).2 hones'
  rw [window_splice x _ _ (by omega)] at hdiv
  have hgroup : 0 < 2 ^ (boundary n - e) := Nat.pow_pos (by norm_num)
  have hsplit : 2 ^ subBits n = 2 ^ (boundary n - e) * 2 ^ (subBits n - (boundary n - e)) := by
    rw [← Nat.pow_add]
    congr 1
    omega
  -- the index of the last group is greater than that of any prefix before it
  have hwindow : window x n (subBits n) <
      2 ^ (boundary n - e) * (2 ^ (subBits n - (boundary n - e)) - 1) := by
    rw [Nat.mul_sub_one]
    omega
  have hlast : 2 ^ (boundary n - e) * (2 ^ (subBits n - (boundary n - e)) - 1) ≤
      2 ^ subBits n - 1 := by
    rw [Nat.mul_sub_one]
    omega
  have hbefore := Nat.div_lt_of_lt_mul hwindow
  have hafter := (Nat.le_div_iff_mul_le hgroup).2 ((mul_comm _ _).trans_le hlast)
  omega

/-- Empty entries at all indices of a group make open prefixes. -/
theorem Shape.open_of_empty (h : Shape fam t r T) (hc : T c a) (hclear : Clear t T base (t.bits c) a)
    (hlt : t.bits c < want) (hce : t.bits c ≤ e) (he : e ≤ boundary (t.bits c)) (hwant : e ≤ want)
    (hi : i < 2 ^ subBits (t.bits c)) (hmod : i % 2 ^ (boundary (t.bits c) - e) = 0)
    (hempty : ∀ j, j < 2 ^ (boundary (t.bits c) - e) → nth (t.subs c) (i + j) = none)
    (hx : Agree e x (splice a (t.bits c) (subBits (t.bits c)) i)) : Open t T want base x := by
  intro d y hd hxy
  have hya : Agree (t.bits c) y a :=
    (hxy.mono (le_of_lt hlt)).symm.trans ((hx.mono hce).trans (splice_agree a _ _ i))
  have hcy : T c y := h.cover.mem_of_agree hc hya.symm
  -- the index of every address inside points to an empty entry
  have hnone : nth (t.subs c) (window y (t.bits c) (subBits (t.bits c))) = none := by
    have hgroup : Agree e y (splice a (t.bits c) (subBits (t.bits c)) i) :=
      (hxy.mono hwant).symm.trans hx
    have hdiv := (Shape.window_div_iff (hgroup.mono hce) hce he).2 hgroup
    rw [window_splice a _ _ hi,
      ← mem_run_iff_div_eq (Nat.pow_pos (by norm_num)) hmod] at hdiv
    have hentry := hempty (window y (t.bits c) (subBits (t.bits c)) - i) (by omega)
    rwa [Nat.add_sub_cancel' hdiv.1] at hentry
  have hle : t.bits d ≤ t.bits c := by
    refine h.cover.le_of_blocked (n := t.bits d) hcy (fun s hs => ?_) hd (le_refl _)
    rw [layout_child, hnone] at hs
    cases hs
  refine ⟨by omega, fun hbase => hclear ?_ hbase hle⟩
  exact h.cover.mem_of_agree hd (hya.mono hle)

/-- A block inside which there is an open prefix ends at the boundary. -/
theorem Shape.bits_of_open (h : Shape fam t r T) (hnat : Natural t T) (hc : T c a)
    (hbase : base ≤ t.bits c) (ho : nth (t.subs c) i = some o) {y : BitStream} (hmem : T o y)
    (hx : Agree want x y) (hopen : Open t T want base x) :
    t.bits o = boundary (t.bits c) ∧ boundary (t.bits c) < want ∧ t.items .net o = [] ∧
      t.items .range o = [] := by
  have hlong := (h.splice_child hc (h.fits hc ho).2.1 ho).2
  rcases hopen o _ hmem hx with ⟨hlt, hitems⟩
  rcases hitems (by omega) with ⟨hnets, hranges⟩
  have hfour := hnat hmem hnets hranges
  have hfits := (h.fits hc ho).2.2
  have hbits : t.bits o = boundary (t.bits c) := by
    rw [boundary_eq] at hfits ⊢
    omega
  exact ⟨hbits, by omega, hnets, hranges⟩

/-- Above a sub-block without nets and ranges there is only its block. -/
theorem Clear.sub (h : Shape fam t r T) (hc : T c a) (hclear : Clear t T base (t.bits c) a)
    (hi : i < 2 ^ subBits (t.bits c)) (ho : nth (t.subs c) i = some o)
    (hnets : t.items .net o = []) (hranges : t.items .range o = []) :
    Clear t T base (t.bits o) (splice a (t.bits c) (subBits (t.bits c)) i) := by
  intro d hd hbase hle
  have hag := splice_agree a (t.bits c) (subBits (t.bits c)) i
  have hmem : T c (splice a (t.bits c) (subBits (t.bits c)) i) :=
    h.cover.mem_of_agree hc hag.symm
  have ho' := (h.splice_child hc hi ho).1
  rcases lt_or_ge (t.bits d) (t.bits o) with hlt | hge
  · have hdc := h.cover.le_of_blocked (n := t.bits d) hmem (fun s hs => by
      rw [layout_child, window_splice a _ _ hi, ho] at hs
      cases hs
      exact hlt) hd (le_refl _)
    exact hclear (h.cover.mem_of_agree hd (hag.mono hdc)) hbase hdc
  · rw [h.cover.unique hd ho' (le_antisymm hle hge)]
    exact ⟨hnets, hranges⟩

/-- A sub-block that ends at the boundary has one index. -/
theorem Shape.index_eq (h : Shape fam t r T) (hc : T c a) {j : ℕ} (hi : nth (t.subs c) i = some o)
    (hj : nth (t.subs c) j = some o) (hbits : t.bits o = boundary (t.bits c)) : i = j := by
  rcases h.fits hc hi with ⟨_, hilt, _⟩
  rcases h.fits hc hj with ⟨_, hjlt, _⟩
  have hmi := (h.splice_child hc hilt hi).1
  have hmj := (h.splice_child hc hjlt hj).1
  have hag : Agree (boundary (t.bits c)) (splice a (t.bits c) (subBits (t.bits c)) i)
      (splice a (t.bits c) (subBits (t.bits c)) j) := by
    rw [← hbits]
    exact h.cover.agree_of_mem hmi hmj
  have hdiv := (Shape.window_div_iff (n := boundary (t.bits c)) (hag.mono (Nat.le_add_right _ _))
    (Nat.le_add_right _ _) (le_refl _)).2 hag
  rw [window_splice a _ _ hilt, window_splice a _ _ hjlt, Nat.sub_self,
    pow_zero, Nat.div_one, Nat.div_one] at hdiv
  exact hdiv

lemma testBit_rightZero : ∀ i < 16, i ≠ 0 → i.testBit (rightZero.getD i 0) = true := by
  decide

lemma LeftBits.index {left sbits : ℕ} (hleft : LeftBits base a (t.bits c) left)
    (hsbits : sbits ≤ subBits (t.bits c)) (hi : i < 2 ^ subBits (t.bits c))
    (hmod : i % 2 ^ (subBits (t.bits c) - sbits) = 0)
    (hbits : autoNetBits base left sbits ⟨t.bits c, c⟩ i = (cmp, l)) :
    LeftBits base (splice a (t.bits c) (subBits (t.bits c)) i) (boundary (t.bits c)) l ∧
      cmp ≤ t.bits c + sbits ∧ (l = base → i = 0 ∧ left = base ∧ cmp = t.bits c + sbits) ∧
      (l ≠ base → cmp = l ∧
        ∀ k, cmp ≤ k → splice a (t.bits c) (subBits (t.bits c)) i k = false) := by
  have hspec := autoNetBits_spec base ⟨t.bits c, c⟩ hleft.le hleft.clear hsbits hi hmod
  rw [hbits] at hspec
  rcases hspec with ⟨hcmp, hl, hclear, hlclear⟩
  have hge := hleft.ge
  have hle := hleft.le
  unfold autoNetBits at hbits
  by_cases hzero : i = 0
  · subst hzero
    rw [if_neg (by simp)] at hbits
    have hsame : l = left := by
      split_ifs at hbits
      · exact (Prod.mk.inj hbits).2.symm
      · exact (Prod.mk.inj hbits).2.symm
    subst hsame
    refine ⟨⟨hge, hl, fun k hk _ => hlclear k hk, fun hne => ?_⟩, hcmp, fun heq => ?_, fun hne => ?_⟩
    · rw [splice_agree a _ _ 0 (l - 1) (by omega)]
      exact hleft.bit hne
    · rw [if_pos heq] at hbits
      exact ⟨rfl, heq, (Prod.mk.inj hbits).1.symm⟩
    · rw [if_neg hne] at hbits
      exact ⟨(Prod.mk.inj hbits).1.symm, hclear⟩
  · rw [if_pos hzero] at hbits
    have hpair : (t.bits c + subBits (t.bits c) - rightZero.getD i 0,
        t.bits c + subBits (t.bits c) - rightZero.getD i 0) = (cmp, l) := hbits
    obtain ⟨rfl, rfl⟩ := Prod.mk.inj hpair
    have hsub := subBits_eq (t.bits c)
    have hlt : i < 16 :=
      lt_of_lt_of_le hi (Nat.pow_le_pow_right (by norm_num) (show subBits (t.bits c) ≤ 4 by omega))
    have hbit := testBit_rightZero i hlt hzero
    -- the last bit of the index that is on
    have hpos : rightZero.getD i 0 < subBits (t.bits c) := by
      by_contra hnot
      rw [Nat.testBit_lt_two_pow (lt_of_lt_of_le hi
        (Nat.pow_le_pow_right (by norm_num) (Nat.le_of_not_lt hnot)))] at hbit
      cases hbit
    refine ⟨⟨by omega, hl, fun k hk _ => hlclear k hk, fun _ => ?_⟩, hcmp, fun heq => ?_,
      fun _ => ⟨rfl, hclear⟩⟩
    · rw [splice_of_ge a i (by omega)]
      have hindex : t.bits c + subBits (t.bits c) - 1 -
          (t.bits c + subBits (t.bits c) - rightZero.getD i 0 - 1) = rightZero.getD i 0 := by
        omega
      rw [hindex, hbit, Bool.and_true, decide_eq_true_eq]
      omega
    · omega

end Groups

/-! ## Rounds -/

section Rounds

variable {g₀ : BitStream} {left : ℕ} {s : AutoNet} {result : InetBest}

lemma Wrote.length (h : Wrote want base n left a p g result p' g') :
    p'.octets.length = p.octets.length := by
  rcases h with ⟨_, rfl, _⟩ | ⟨_, _, hw⟩
  · rfl
  · exact hw.length

lemma Wrote.above {k : ℕ} (h : Wrote want base n left a p g result p' g') (hk : k < n) :
    p'.stream k = p.stream k := by
  rcases h with ⟨_, rfl, _⟩ | ⟨_, _, hw⟩
  · rfl
  · exact hw.above k hk

def Seen (t : Tree) (T : Coverage) (want base : ℕ) (V : BitStream → Prop)
    (c : DbObject) (a : BitStream) (i : ℕ) (x : BitStream) : Prop :=
  V x ∨ (Agree (t.bits c) x a ∧ window x (t.bits c) (subBits (t.bits c)) < i ∧
    Open t T want base x)

structure Progress (t : Tree) (T : Coverage) (want base : ℕ)
    (V : BitStream → Prop) (best : InetBest) (p : InetPrefix) (g : BitStream) (left : ℕ)
    (c : DbObject) (a : BitStream) (i : ℕ) (s : AutoNet) (g' : BitStream) : Prop where
  scan : Scan want base (Seen t T want base V c a i) s.best s.pfx g'
  best_eq : s.best = s.result.or best
  wrote : Wrote want base (t.bits c) left a p g s.result s.pfx g'
  start : i = 0 → s.result = .noneBest
  last : ∀ {o}, s.last = some o → ∃ j < i, nth (t.subs c) j = some o

def entryEnd (want n : ℕ) : ℕ :=
  n + (subBits n - (boundary n - want))

lemma entryEnd_spec (hlt : n < want) :
    entryEnd want n ≤ want ∧ n < entryEnd want n ∧ entryEnd want n ≤ boundary n ∧
      boundary n - entryEnd want n = boundary n - want := by
  have hbound : boundary n = n + subBits n := rfl
  have hpos := subBits_pos n
  unfold entryEnd
  omega

lemma seen_add_iff (hlt : t.bits c < want) (hi : i < 2 ^ subBits (t.bits c))
    (hmod : i % 2 ^ (boundary (t.bits c) - want) = 0) :
    Seen t T want base V c a (i + 2 ^ (boundary (t.bits c) - want)) x ↔
      Seen t T want base V c a i x ∨
        (Agree (entryEnd want (t.bits c)) x
          (splice a (t.bits c) (subBits (t.bits c)) i) ∧ Open t T want base x) := by
  rcases entryEnd_spec hlt with ⟨hwant, hce, he, hk⟩
  rw [← hk] at hmod ⊢
  constructor
  · rintro (hV | ⟨hag, hwin, hopen⟩)
    · exact .inl (.inl hV)
    · rcases (window_lt_add_iff hag (le_of_lt hce) he hi hmod).1 hwin with hbefore | hgroup
      · exact .inl (.inr ⟨hag, hbefore, hopen⟩)
      · exact .inr ⟨hgroup, hopen⟩
  · rintro ((hV | ⟨hag, hwin, hopen⟩) | ⟨hgroup, hopen⟩)
    · exact .inl hV
    · exact .inr ⟨hag, by omega, hopen⟩
    · have hag : Agree (t.bits c) x a :=
        (hgroup.mono (le_of_lt hce)).trans (splice_agree a _ _ i)
      exact .inr ⟨hag,
        (window_lt_add_iff hag (le_of_lt hce) he hi hmod).2 (.inr hgroup), hopen⟩

lemma Progress.skip (hs : Progress t T want base V best p g left c a i s g₀) (hlt : t.bits c < want)
    (hi : i < 2 ^ subBits (t.bits c)) (hmod : i % 2 ^ (boundary (t.bits c) - want) = 0)
    (hnone : ∀ x, Agree (entryEnd want (t.bits c)) x (splice a (t.bits c) (subBits (t.bits c)) i) →
      ¬ Open t T want base x) {last : Option DbObject}
    (hlast : ∀ {o}, last = some o → s.last = some o ∨ nth (t.subs c) i = some o) :
    Progress t T want base V best p g left c a (i + 2 ^ (boundary (t.bits c) - want))
      { s with last } g₀ := by
  refine ⟨hs.scan.congr fun x => ?_, hs.best_eq, hs.wrote, fun hzero => by omega, fun ho => ?_⟩
  · rw [seen_add_iff hlt hi hmod]
    exact ⟨fun hx => hx.elim id fun hg => absurd hg.2 (hnone x hg.1), .inl⟩
  · rcases hlast ho with hold | hnew
    · rcases hs.last hold with ⟨j, hj, hjo⟩
      exact ⟨j, by omega, hjo⟩
    · exact ⟨i, by omega, hnew⟩

lemma CallAt.fresh_seen (hcall : CallAt fam t T want base V best p left c a)
    (hi : i + 2 ^ (boundary (t.bits c) - want) ≤ 2 ^ subBits (t.bits c)) :
    ∀ x, Seen t T want base V c a i x → ¬ Ones want base x := by
  rcases entryEnd_spec hcall.lt with ⟨hwant, hce, he, hk⟩
  rintro x (hV | ⟨_, hwin, _⟩)
  · exact hcall.fresh x hV
  · have hbase := hcall.leftBits.ge.trans hcall.leftBits.le
    rw [← hk] at hi
    exact not_ones_of_window_lt hbase (le_of_lt hce) he hwant hi hwin

lemma Progress.candidate (h : Shape fam t r T) (hmax : want < fam.bits)
    (hcall : CallAt fam t T want base V best p left c a)
    (hs : Progress t T want base V best p g left c a i s g₀)
    (hi : i + 2 ^ (boundary (t.bits c) - want) ≤ 2 ^ subBits (t.bits c))
    (hmod : i % 2 ^ (boundary (t.bits c) - want) = 0)
    (hempty : ∀ j, j < 2 ^ (boundary (t.bits c) - want) → nth (t.subs c) (i + j) = none)
    (hbits : autoNetBits base left
      (subBits (t.bits c) - (boundary (t.bits c) - want)) ⟨t.bits c, c⟩ i = (cmp, l)) :
    (¬ Better s.best s.pfx.bits cmp →
      Progress t T want base V best p g left c a (i + 2 ^ (boundary (t.bits c) - want)) s g₀) ∧
    (Better s.best s.pfx.bits cmp → ∃ p₁ g₁, inetSubPrefix { s.pfx with bits := cmp } (t.bits c)
        (subBits (t.bits c) - (boundary (t.bits c) - want)) i = .ok p₁ ∧
      Progress t T want base V best p g left c a (i + 2 ^ (boundary (t.bits c) - want))
        { s with
          pfx := p₁
          best := if l = base then .zeroBest else .otherBest
          result := if l = base then .zeroBest else .otherBest } g₁) := by
  have hbound : boundary (t.bits c) = t.bits c + subBits (t.bits c) := rfl
  have hlt := hcall.lt
  have hi' : i < 2 ^ subBits (t.bits c) := by omega
  rcases entryEnd_spec hlt with ⟨hwant, hce, he, hk⟩
  have hend : entryEnd want (t.bits c) =
      t.bits c + (subBits (t.bits c) - (boundary (t.bits c) - want)) := rfl
  have hgroup : subBits (t.bits c) - (subBits (t.bits c) - (boundary (t.bits c) - want)) =
      boundary (t.bits c) - want := by omega
  have hbase := hcall.leftBits.ge.trans hcall.leftBits.le
  rcases hcall.leftBits.index (Nat.sub_le _ _) hi' (by rw [hgroup]; exact hmod) hbits with
    ⟨hl, hcmp, hzero, hother⟩
  -- all the prefixes of the group are open
  have hopen : ∀ x, Agree (entryEnd want (t.bits c)) x
      (splice a (t.bits c) (subBits (t.bits c)) i) → Open t T want base x := by
    intro x hx
    rw [← hk] at hmod hempty
    exact h.open_of_empty hcall.mem hcall.clear hlt (le_of_lt hce) he hwant hi' hmod hempty hx
  have hseen : ∀ x, Seen t T want base V c a (i + 2 ^ (boundary (t.bits c) - want)) x ↔
      Seen t T want base V c a i x ∨ Agree (entryEnd want (t.bits c)) x
        (splice a (t.bits c) (subBits (t.bits c)) i) := by
    intro x
    rw [seen_add_iff hlt hi' hmod]
    exact or_congr_right ⟨And.left, fun hx => ⟨hx, hopen x hx⟩⟩
  have hlast : ∀ {o}, s.last = some o →
      ∃ j < i + 2 ^ (boundary (t.bits c) - want), nth (t.subs c) j = some o := by
    intro o ho
    rcases hs.last ho with ⟨j, hj, hjo⟩
    exact ⟨j, by omega, hjo⟩
  -- nothing has been found before the first prefix
  have hfirst : l = base → s.best = .noneBest := by
    intro heq
    rcases hzero heq with ⟨hi0, hleft, -⟩
    rw [hs.best_eq, hs.start hi0]
    exact hcall.none hleft
  constructor
  · intro hreject
    have hne : l ≠ base := fun heq => hreject (.inr (.inl (hfirst heq)))
    rcases hother hne with ⟨rfl, -⟩
    have hscan := hs.scan.reject (hcall.fresh_seen hi)
      (lt_of_le_of_ne hl.ge (Ne.symm hne)) hcmp hwant (hl.bit hne) hreject
    exact ⟨hscan.congr hseen, hs.best_eq, hs.wrote, fun hi0 => by omega, hlast⟩
  · intro haccept
    have hoctets : t.bits c >>> 3 < s.pfx.octets.length := by
      have := fam_bits fam
      have := hs.wrote.length.trans hcall.length
      omega
    rcases inetSubPrefix_spec (p := { s.pfx with bits := cmp }) hoctets
      (show 0 < subBits (t.bits c) - (boundary (t.bits c) - want) by omega) (Nat.sub_le _ _) hi'
      (by rw [hgroup]; exact hmod) with ⟨p₁, hok, hbits₁, hlen₁, hstream₁⟩
    have hcmp₁ : p₁.bits = cmp := hbits₁
    have hwrites : ∀ k, t.bits c ≤ k → k < entryEnd want (t.bits c) →
        p₁.stream k = splice a (t.bits c) (subBits (t.bits c)) i k := by
      intro k hge hk'
      have hin : k < t.bits c + subBits (t.bits c) := by omega
      rw [hstream₁, if_pos ⟨hge, hk'⟩, splice_of_ge a i hge, decide_eq_true hin]
      rfl
    have hwritten : (∀ k, cmp ≤ k → k < want →
        splice a (t.bits c) (subBits (t.bits c)) i k = false) →
        Written want (t.bits c) a p p₁ (splice a (t.bits c) (subBits (t.bits c)) i) := by
      intro hclear
      refine ⟨hlen₁.trans hs.wrote.length, fun k hk' => ?_, splice_agree a _ _ i,
        fun k hge hk' => hwrites k hge (by omega), fun k hk' => hclear k (by omega)⟩
      rw [hstream₁, if_neg (by omega)]
      exact hs.wrote.above hk'
    refine ⟨p₁, splice a (t.bits c) (subBits (t.bits c)) i, hok, ?_⟩
    by_cases heq : l = base
    · rcases hzero heq with ⟨rfl, hleft, hcmp_eq⟩
      have hclear : ∀ k, base ≤ k → splice a (t.bits c) (subBits (t.bits c)) 0 k = false := by
        intro k hk'
        by_cases hin : k < boundary (t.bits c)
        · exact hl.clear k (by omega) hin
        · exact splice_eq_false a (le_refl _) (Nat.zero_mod _) (by omega)
      have hnone := hfirst heq
      have hscan := hs.scan
      rw [hnone] at hscan
      have hclean : ∀ k, base ≤ k → p₁.stream k = false := by
        intro k hk'
        by_cases hin : t.bits c ≤ k ∧ k < entryEnd want (t.bits c)
        · rw [hwrites k hin.1 hin.2]
          exact hclear k hk'
        · rw [hstream₁, if_neg (by rw [← hend]; exact hin)]
          exact hs.scan.clean (by rw [hnone]; decide) k hk'
      rw [if_pos heq]
      exact ⟨(hscan.accept_first (by omega) hwant (fun k hk' _ => hclear k hk') (hcmp₁.trans hcmp_eq)
        hclean).congr hseen, rfl,
        .inr ⟨nofun, fun _ => hleft, hwritten fun k hk' _ => hclear k (by omega)⟩,
        fun hi0 => by omega, hlast⟩
    · rcases hother heq with ⟨rfl, hclear⟩
      rw [if_neg heq]
      exact ⟨(hs.scan.accept_other (lt_of_le_of_ne hl.ge (Ne.symm heq)) hcmp hwant
        (hl.bit heq) hclear haccept hcmp₁).congr hseen, rfl,
        .inr ⟨nofun, nofun, hwritten fun k hk' _ => hclear k hk'⟩, fun hi0 => by omega, hlast⟩

/-- A candidate of a sub-block becomes one of the block when the index is written. -/
theorem Written.sub (hlong : t.bits o = boundary (t.bits c)) {p₁ p₂ p₃ : InetPrefix}
    (hwrote : Wrote want base (t.bits c) left a p g result p₁ g₀)
    (hw : Written want (t.bits o) (splice a (t.bits c) (subBits (t.bits c)) i) p₁ p₂ g')
    (hbits : p₃.bits = p₂.bits) (hlength : p₃.octets.length = p₂.octets.length)
    (hstream : ∀ k, p₃.stream k =
      if t.bits c ≤ k ∧ k < t.bits c + subBits (t.bits c) then
        i.testBit (boundary (t.bits c) - 1 - k)
      else p₂.stream k) : Written want (t.bits c) a p p₃ g' := by
  have hbound : boundary (t.bits c) = t.bits c + subBits (t.bits c) := rfl
  refine ⟨(hlength.trans hw.length).trans hwrote.length, fun k hk => ?_, ?_, fun k hge hk => ?_, ?_⟩
  · rw [hstream, if_neg (by omega), hw.above k (by omega)]
    exact hwrote.above hk
  · exact (hw.inside.mono (by omega)).trans (splice_agree a _ _ i)
  · rw [hstream]
    by_cases hin : k < boundary (t.bits c)
    · rw [if_pos ⟨hge, hin⟩, hw.inside k (by omega), splice_of_ge a i hge,
        decide_eq_true (show k < t.bits c + subBits (t.bits c) from hin)]
      rfl
    · rw [if_neg (by omega)]
      exact hw.stream k (by omega) (by omega)
  · rw [hbits]
    exact hw.clear

section

variable (h : Shape fam t r T) (hnat : Natural t T) (hmax : want < fam.bits)

include h hnat hmax

lemma Progress.visit (hcall : CallAt fam t T want base V best p left c a)
    (hs : Progress t T want base V best p g left c a i s g₀) (hdeep : boundary (t.bits c) < want)
    (hi : i < 2 ^ subBits (t.bits c)) (ho : nth (t.subs c) i = some o) (hnets : t.items .net o = [])
    (hranges : t.items .range o = [])
    {visit : InetPrefix → InetBlock → InetBest → ℕ → Except Failure (InetBest × InetPrefix)}
    (hvisit : t.bits o = boundary (t.bits c) → Chooses fam t T want base visit o)
    (hbits : autoNetBits base left (subBits (t.bits c)) ⟨t.bits c, c⟩ i = (cmp, l)) :
    ∃ subBest p₂, visit s.pfx ⟨boundary (t.bits c), o⟩ s.best l = .ok (subBest, p₂) ∧
      (subBest = .noneBest → Progress t T want base V best p g left c a (i + 1)
        { s with
          pfx := p₂
          last := some o } g₀) ∧
      (subBest ≠ .noneBest → ∃ p₃ g₃,
        inetSubPrefix p₂ (t.bits c) (subBits (t.bits c)) i = .ok p₃ ∧
        Progress t T want base V best p g left c a (i + 1) ⟨p₃, subBest, subBest, some o⟩ g₃) := by
  have hbound : boundary (t.bits c) = t.bits c + subBits (t.bits c) := rfl
  have hzero : boundary (t.bits c) - want = 0 := by omega
  have hone : 2 ^ (boundary (t.bits c) - want) = 1 := by rw [hzero, pow_zero]
  rcases h.splice_child hcall.mem hi ho with ⟨hmem, hlong⟩
  -- without a net or a range, the sub-block ends at the boundary
  have hend : t.bits o = boundary (t.bits c) := by
    have hfour := hnat hmem hnets hranges
    have hfits := (h.fits hcall.mem ho).2.2
    rw [boundary_eq] at hfits ⊢
    omega
  rcases hcall.leftBits.index (Nat.le_refl _) hi (by rw [Nat.sub_self, Nat.pow_zero, Nat.mod_one])
    hbits with ⟨hl, -, hfirst, -⟩
  have hcall' : CallAt fam t T want base (Seen t T want base V c a i) s.best s.pfx l o
      (splice a (t.bits c) (subBits (t.bits c)) i) := by
    refine ⟨hmem, by omega, hs.wrote.length.trans hcall.length, by rw [hend]; exact hl, fun heq => ?_,
      Clear.sub h hcall.mem hcall.clear hi ho hnets hranges, hcall.fresh_seen (by omega)⟩
    rcases hfirst heq with ⟨hi0, hleft, -⟩
    rw [hs.best_eq, hs.start hi0]
    exact hcall.none hleft
  rcases hvisit hend hcall' hs.scan with ⟨subBest, p₂, g₂, hok, hscan, hwrote⟩
  rw [hend] at hok
  have hseen : ∀ x, Seen t T want base V c a (i + 1) x ↔ Seen t T want base V c a i x ∨
      (Agree (t.bits o) x (splice a (t.bits c) (subBits (t.bits c)) i) ∧
        Open t T want base x) := by
    intro x
    have hgroup : entryEnd want (t.bits c) = t.bits o := by
      unfold entryEnd
      omega
    rw [← hgroup, ← seen_add_iff hcall.lt hi (by rw [hone, Nat.mod_one]), hone]
  have hlast : ∀ {o'}, some o = some o' → ∃ j < i + 1, nth (t.subs c) j = some o' := by
    rintro o' ⟨⟩
    exact ⟨i, by omega, ho⟩
  refine ⟨subBest, p₂, hok, fun hnone => ?_, fun hne => ?_⟩
  · rcases hwrote with ⟨_, rfl, rfl⟩ | ⟨hne, _⟩
    · rw [hnone] at hscan
      exact ⟨hscan.congr hseen, hs.best_eq, hs.wrote, fun hi0 => by omega, hlast⟩
    · exact absurd hnone hne
  · rcases hwrote with ⟨hnone, _⟩ | ⟨_, hleft, hwritten⟩
    · exact absurd hnone hne
    have hoctets : t.bits c >>> 3 < p₂.octets.length := by
      have := fam_bits fam
      have := (hwritten.length.trans hs.wrote.length).trans hcall.length
      omega
    rcases inetSubPrefix_spec hoctets (subBits_pos _) (le_refl _) hi
      (by rw [Nat.sub_self, Nat.pow_zero, Nat.mod_one]) with ⟨p₃, hok₃, hbits₃, hlen₃, hstream₃⟩
    have hor : subBest.or s.best = subBest := if_neg hne
    rw [hor] at hscan
    refine ⟨p₃, g₂, hok₃, (hscan.write hbits₃ fun hother k hk hclean => ?_).congr hseen,
      (if_neg hne).symm, .inr ⟨hne, fun hz => (hfirst (hleft hz)).2.1,
        Written.sub hend hs.wrote hwritten hbits₃ hlen₃ hstream₃⟩, fun hi0 => by omega, hlast⟩
    -- the index of the first prefix is zero
    have hz : subBest = .zeroBest := by
      cases subBest with
      | noneBest => exact absurd rfl hne
      | zeroBest => rfl
      | otherBest => exact absurd rfl hother
    rw [hstream₃, (hfirst (hleft hz)).1, Nat.zero_testBit]
    split_ifs
    · rfl
    · exact hclean

lemma inetAutoNetRound_chooses (hcall : CallAt fam t T want base V best p left c a)
    {visit : InetPrefix → InetBlock → InetBest → ℕ → Except Failure (InetBest × InetPrefix)}
    (hvisit : ∀ {o}, boundary (t.bits c) < want → t.bits o = boundary (t.bits c) →
      Chooses fam t T want base visit o)
    (hi : i + 2 ^ (boundary (t.bits c) - want) ≤ 2 ^ subBits (t.bits c))
    (hmod : i % 2 ^ (boundary (t.bits c) - want) = 0)
    (hs : Progress t T want base V best p g left c a i s g₀) :
    ∃ s' g₁, inetAutoNetRound t want base left ⟨t.bits c, c⟩
        (subBits (t.bits c) - (boundary (t.bits c) - want)) (2 ^ (boundary (t.bits c) - want))
        visit s i = .ok s' ∧
      Progress t T want base V best p g left c a (i + 2 ^ (boundary (t.bits c) - want)) s' g₁ := by
  have hbound : boundary (t.bits c) = t.bits c + subBits (t.bits c) := rfl
  have hlt := hcall.lt
  have hbase := hcall.leftBits.ge.trans hcall.leftBits.le
  have hi' : i < 2 ^ subBits (t.bits c) := by omega
  rcases entryEnd_spec hlt with ⟨hwant, hce, he, hk⟩
  unfold inetAutoNetRound
  rcases hbits : autoNetBits base left (subBits (t.bits c) - (boundary (t.bits c) - want))
    ⟨t.bits c, c⟩ i with ⟨cmp, l⟩
  cases hfind : (List.range (2 ^ (boundary (t.bits c) - want))).findSome?
      fun j => nth (t.subs c) (i + j) with
  | none =>
    have hempty : ∀ j, j < 2 ^ (boundary (t.bits c) - want) → nth (t.subs c) (i + j) = none :=
      fun j hj => List.findSome?_eq_none_iff.1 hfind j (List.mem_range.2 hj)
    rcases hs.candidate h hmax hcall hi hmod hempty hbits with ⟨hreject, haccept⟩
    dsimp only
    by_cases hbetter : cmp < s.pfx.bits ∨ s.best = .noneBest ∨
        (s.best = .zeroBest ∧ cmp = s.pfx.bits)
    · rcases haccept hbetter with ⟨p₁, g₁, hok, hprogress⟩
      refine ⟨_, g₁, ?_, hprogress⟩
      rw [if_pos hbetter, hok]
      rfl
    · exact ⟨s, g₀, if_neg hbetter, hreject hbetter⟩
  | some o =>
    rcases List.exists_of_findSome?_eq_some hfind with ⟨j, hj, ho⟩
    have hj' := List.mem_range.1 hj
    dsimp only
    by_cases hdeep : t.bits c + (subBits (t.bits c) - (boundary (t.bits c) - want)) < want
    · have hzero : boundary (t.bits c) - want = 0 := by omega
      rw [hzero] at hj' hi hmod ⊢
      rw [hzero] at hbits
      obtain rfl : j = 0 := by omega
      have hend : entryEnd want (t.bits c) = boundary (t.bits c) := by omega
      have hskip : (∀ x, Agree (boundary (t.bits c)) x
          (splice a (t.bits c) (subBits (t.bits c)) i) → ¬ Open t T want base x) →
          ∀ {last : Option DbObject},
            (∀ {o}, last = some o → s.last = some o ∨ nth (t.subs c) i = some o) →
            Progress t T want base V best p g left c a (i + 1) { s with last } g₀ := by
        intro hnone last hlast
        have hstep := hs.skip hlt hi' (by rw [hzero]; exact hmod) (by rw [hend]; exact hnone) hlast
        rwa [hzero] at hstep
      -- every prefix at this index lies in the sub-block
      have hmem : ∀ x, Agree (boundary (t.bits c)) x
          (splice a (t.bits c) (subBits (t.bits c)) i) → T o x := fun x hx =>
        h.cover.mem_of_agree (h.splice_child hcall.mem hi' ho).1
          (hx.mono (h.fits hcall.mem ho).2.2).symm
      rw [hzero, Nat.sub_zero, ← hbound] at hdeep
      rw [Nat.sub_zero, ← hbound, if_pos hdeep]
      by_cases hlast : s.last = some o
      · rw [if_pos hlast]
        refine ⟨s, g₀, rfl, hskip (fun x hx hopen => ?_) .inl⟩
        -- a sub-block that has been met before has a net or a range
        have hend := (h.bits_of_open hnat hcall.mem hbase ho (hmem x hx) (Agree.refl _ _) hopen).1
        rcases hs.last hlast with ⟨j, hj, hjo⟩
        have := h.index_eq hcall.mem ho hjo hend
        omega
      · rw [if_neg hlast]
        by_cases hfree : inetFirstItem t o .net = none ∧ inetFirstItem t o .range = none
        · have hnets : t.items .net o = [] := by simpa [inetFirstItem] using hfree.1
          have hranges : t.items .range o = [] := by simpa [inetFirstItem] using hfree.2
          rcases hs.visit h hnat hmax hcall hdeep hi' ho hnets hranges (hvisit hdeep) hbits with
            ⟨subBest, p₂, hok, hnone, hsome⟩
          rw [if_pos hfree, hok]
          dsimp only [bind, Except.bind]
          by_cases hsub : subBest = .noneBest
          · rw [if_neg (not_not.2 hsub)]
            exact ⟨_, g₀, rfl, hnone hsub⟩
          · rcases hsome hsub with ⟨p₃, g₃, hok₃, hprogress⟩
            rw [if_pos hsub, hok₃]
            exact ⟨_, g₃, rfl, hprogress⟩
        · rw [if_neg hfree]
          refine ⟨_, g₀, rfl, hskip (fun x hx hopen => hfree ?_) fun heq => .inr ?_⟩
          · rcases h.bits_of_open hnat hcall.mem hbase ho (hmem x hx) (Agree.refl _ _) hopen with
              ⟨-, -, hnets, hranges⟩
            simp [inetFirstItem, hnets, hranges]
          · cases heq
            exact ho
    · -- a prefix of which a part is occupied
      have hend : entryEnd want (t.bits c) = want := by
        omega
      rw [if_neg hdeep]
      refine ⟨s, g₀, rfl, hs.skip hlt hi' hmod (fun x hx hopen => ?_) .inl⟩
      rw [hend] at hx
      have hij : i + j < 2 ^ subBits (t.bits c) := by omega
      have hsame : Agree want (splice a (t.bits c) (subBits (t.bits c)) (i + j))
          (splice a (t.bits c) (subBits (t.bits c)) i) := by
        have hag := splice_agree a (t.bits c) (subBits (t.bits c)) (i + j)
        rcases (window_lt_add_iff hag (le_of_lt hlt) (by omega) hi' hmod).1
          (by rw [window_splice a _ _ hij]; omega) with hbefore | hgroup
        · rw [window_splice a _ _ hij] at hbefore
          omega
        · exact hgroup
      have hocc := h.bits_of_open hnat hcall.mem hbase ho (h.splice_child hcall.mem hij ho).1
        (hx.trans hsame.symm) hopen
      omega

/-! ## The whole search -/

/-- `Inet_Auto_Net` ends without a failed assertion, and keeps the prefix that it prefers. -/
theorem inetAutoNet_chooses (fuel : ℕ) (hfuel : want - t.bits c ≤ fuel) :
    Chooses fam t T want base (inetAutoNet t want base fuel) c := by
  induction fuel generalizing c with
  | zero =>
    intro V best p left a g hcall
    have := hcall.lt
    omega
  | succ fuel ih =>
    intro V best p left a g hcall hscan
    have hlt := hcall.lt
    have hbound : boundary (t.bits c) = t.bits c + subBits (t.bits c) := rfl
    have hpos := subBits_pos (t.bits c)
    rcases group_eq hlt with ⟨hcount, hsbits⟩
    -- the groups fill the indices
    have hsplit : 2 ^ (boundary (t.bits c) - want) *
        (1 <<< subBits (t.bits c) / 2 ^ (boundary (t.bits c) - want)) =
        2 ^ subBits (t.bits c) := by
      rw [Nat.one_shiftLeft]
      exact Nat.mul_div_cancel' (Nat.pow_dvd_pow 2 (by omega))
    have hloop := foldlM_range' (inetAutoNetRound t want base left ⟨t.bits c, c⟩
        (subBits (t.bits c) - (boundary (t.bits c) - want))
        (2 ^ (boundary (t.bits c) - want)) (inetAutoNet t want base fuel))
      (fun i s => ∃ g', Progress t T want base V best p g left c a i s g')
      (2 ^ (boundary (t.bits c) - want))
      (1 <<< subBits (t.bits c) / 2 ^ (boundary (t.bits c) - want))
      ⟨p, best, .noneBest, none⟩ ?_ ?_
    · rcases hloop with ⟨s, heq, g', hs⟩
      rw [hsplit] at hs
      refine ⟨s.result, s.pfx, g', ?_, ?_, hs.wrote⟩
      · rw [inetAutoNet]
        simp only [hcount, hsbits, heq]
        rfl
      · rw [← hs.best_eq]
        refine hs.scan.congr fun x => or_congr_right ⟨fun hx => ⟨hx.1, ?_, hx.2⟩, fun hx =>
          ⟨hx.1, hx.2.2⟩⟩
        exact window_lt x _ _
    · rintro k hk s ⟨g', hs⟩
      have hle : 2 ^ (boundary (t.bits c) - want) * k + 2 ^ (boundary (t.bits c) - want) ≤
          2 ^ subBits (t.bits c) := by
        rw [← hsplit]
        exact Nat.mul_le_mul_left _ hk
      rcases inetAutoNetRound_chooses h hnat hmax hcall
        (fun hdeep hend => ih (by omega)) hle (Nat.mul_mod_right _ _) hs with ⟨s', g₁, hok, hs'⟩
      exact ⟨s', hok, g₁, hs'⟩
    · refine ⟨g, hscan.congr fun x => ⟨fun hx => hx.elim id fun hx => by omega, .inl⟩, rfl,
        .inl ⟨rfl, rfl, rfl⟩, fun _ => rfl, by simp⟩

end

end Rounds

/-! ## Nets -/

/-- The address `a` starts an aligned block of `want` bits inside the prefix `q` of a net, in which
there are no blocks, and which lies in no block of a subnet or a range. -/
structure OpenBlock (t : Tree) (q : InetPrefix) (want : ℕ) (a : BitStream) : Prop where
  inside : Agree q.bits a q.stream
  start : ∀ k, want ≤ k → a k = false
  isOpen : Open t (fun b x => t.Covers x b) want q.bits a

/-- The last bit of an address that is on is number `m`, counted from one. -/
def LowestBit (a : BitStream) (m : ℕ) : Prop :=
  0 < m ∧ a (m - 1) = true ∧ ∀ k, m ≤ k → a k = false

section Nets

variable {st : State} {dir : Directory} {net : DbObject} {q : InetPrefix}

lemma WellFormed.scan (h : WellFormed fam st dir)
    (hnat : Natural st.tree fun b a => st.tree.Covers a b) (hnet : dir net = some ⟨.net, q⟩)
    (hlt : q.bits < want) (hmax : want < fam.bits) :
    ∃ b result p g, Reaches fam st.tree q b ∧
      inetAutoNet st.tree want q.bits want q ⟨q.bits, b⟩ .noneBest q.bits = .ok (result, p) ∧
      Scan want q.bits (fun x => Agree q.bits x q.stream ∧
        Open st.tree (fun b x => st.tree.Covers x b) want q.bits x) result p g ∧
      (result ≠ .noneBest → Written want q.bits q.stream q p g) := by
  rcases h.filing with ⟨r, hfile⟩
  rcases h.filed hnet with ⟨b, hreach, _⟩
  rcases (hfile.reaches_iff q b).1 hreach with ⟨hb, hbits⟩
  rcases h.accepted hnet with ⟨hlength, -, hclear⟩
  have hcall : CallAt fam st.tree (fun b a => st.tree.Covers a b) want q.bits (fun _ => False)
      .noneBest q q.bits b q.stream := by
    refine ⟨hb, by omega, hlength, ⟨le_refl _, by omega, fun k hk hkb => by omega,
      fun hne => absurd rfl hne⟩, fun _ => rfl, fun _ hlow hle => by omega, fun _ hx => hx.elim⟩
  have hscan : Scan want q.bits (fun _ => False) .noneBest q q.stream :=
    ⟨fun hn => absurd rfl hn, fun _ _ hx => hx, fun _ k hk => hclear k hk, nofun, nofun⟩
  rcases inetAutoNet_chooses hfile.shape hnat hmax want (Nat.sub_le _ _) hcall hscan with
    ⟨result, p, g, hok, hend, hwrote⟩
  rw [hbits] at hok hend hwrote
  have hor : result.or .noneBest = result := by
    unfold InetBest.or
    split_ifs with hn
    · exact hn.symm
    · rfl
  rw [hor] at hend
  refine ⟨b, result, p, g, hreach, hok, hend.congr fun x => (iff_of_eq (false_or _)).symm, fun hne => ?_⟩
  rcases hwrote with ⟨hn, _⟩ | ⟨_, _, hw⟩
  · exact absurd hn hne
  · exact hw

/-- The address that the result stands for is the one that is kept. -/
theorem Written.cleared (h : Written want q.bits q.stream q p g) : Agree want p.cleared g := by
  intro k hk
  unfold InetPrefix.cleared
  by_cases hin : k < p.bits
  · rw [decide_eq_true hin, Bool.true_and]
    rcases lt_or_ge k q.bits with hlow | hge
    · rw [h.above k hlow, h.inside k hlow]
    · exact h.stream k hge hin
  · rw [decide_eq_false hin]
    exact (h.clear k (Nat.le_of_not_lt hin) hk).symm

lemma OpenBlock.of_agree (hin : Agree q.bits x q.stream)
    (hopen : Open t (fun b x => t.Covers x b) want q.bits x) (hag : Agree want a x)
    (hlt : q.bits < want) (hstart : ∀ k, want ≤ k → a k = false) : OpenBlock t q want a :=
  ⟨(hag.mono (le_of_lt hlt)).trans hin, hstart, fun d y hd hy => hopen d y hd (hag.symm.trans hy)⟩

/-- An open block other than the first one has a bit on. -/
theorem OpenBlock.busy (h : OpenBlock t q want a) (hclear : ∀ k, q.bits ≤ k → q.stream k = false)
    (hne : a ≠ q.stream) : Busy want q.bits a := by
  by_contra hnot
  refine hne (funext fun k => ?_)
  rcases lt_or_ge k q.bits with hlow | hge
  · exact h.inside k hlow
  · rw [hclear k hge]
    rcases lt_or_ge k want with hin | hout
    · by_contra hbit
      exact hnot ⟨k, hge, hin, by simpa using hbit⟩
    · exact h.start k hout

lemma LowestBit.lt_of_busy (h : LowestBit a m) (hbusy : Busy want n a) : n < m := by
  rcases hbusy with ⟨k, hk, _, hbit⟩
  by_contra hle
  rw [h.2.2 k (by omega)] at hbit
  cases hbit

lemma Scan.openBlock {result : InetBest} (h : Scan want q.bits (fun x => Agree q.bits x q.stream ∧
      Open t (fun b x => t.Covers x b) want q.bits x) result p g)
    (hwritten : Written want q.bits q.stream q p g) (hne : result ≠ .noneBest) (hlt : q.bits < want) :
    OpenBlock t q want p.cleared := by
  have hle := h.bits_le hne
  have hV : Agree q.bits g q.stream ∧ Open t (fun b x => t.Covers x b) want q.bits g := by
    cases hres : result with
    | noneBest => exact absurd hres hne
    | zeroBest => exact (h.first hres).2.2.1 g (Agree.refl _ _)
    | otherBest => exact (h.other hres).1
  refine .of_agree hV.1 hV.2 hwritten.cleared hlt fun k hk => ?_
  have hout : ¬ k < p.bits := by omega
  simp [InetPrefix.cleared, hout]

/-- `Inet_Auto_Net` finds an open block if there is one: one whose last bit comes as early as
possible, and the first block of the net only if every other one needs more bits. -/
theorem inetAutoNet_prefers (h : WellFormed fam st dir)
    (hnat : Natural st.tree fun b a => st.tree.Covers a b) (hnet : dir net = some ⟨.net, q⟩)
    (hlt : q.bits < want) (hmax : want < fam.bits) :
    ∃ b result p, Reaches fam st.tree q b ∧
      inetAutoNet st.tree want q.bits want q ⟨q.bits, b⟩ .noneBest q.bits = .ok (result, p) ∧
      (result = .noneBest ↔ ¬ ∃ a, OpenBlock st.tree q want a) ∧
      (result ≠ .noneBest → OpenBlock st.tree q want p.cleared ∧
        (∀ a m, OpenBlock st.tree q want a → a ≠ q.stream → LowestBit a m → p.bits ≤ m) ∧
        (p.cleared = q.stream →
          ∀ a m, OpenBlock st.tree q want a → a ≠ q.stream → LowestBit a m → p.bits < m)) := by
  rcases h.scan hnat hnet hlt hmax with ⟨b, result, p, g, hreach, hok, hscan, hwritten⟩
  have hclear := (h.accepted hnet).2.2
  have hfound : result ≠ .noneBest → OpenBlock st.tree q want p.cleared := fun hne =>
    hscan.openBlock (hwritten hne) hne hlt
  refine ⟨b, result, p, hreach, hok, ⟨fun hn => ?_, fun hn => ?_⟩, fun hne => ⟨hfound hne, ?_, ?_⟩⟩
  · rintro ⟨a, ha⟩
    exact hscan.empty hn a ⟨ha.inside, ha.isOpen⟩
  · by_contra hne
    exact hn ⟨_, hfound hne⟩
  · intro a m ha hother hm
    have hbusy := ha.busy hclear hother
    cases hres : result with
    | noneBest => exact absurd hres hne
    | zeroBest =>
      have := hm.lt_of_busy ((hscan.first hres).2.2.2 a ⟨ha.inside, ha.isOpen⟩ hbusy)
      omega
    | otherBest =>
      have := hm.lt_of_busy ((hscan.other hres).2.2.1 a ⟨ha.inside, ha.isOpen⟩ hbusy)
      omega
  · intro hzero a m ha hother hm
    have hbusy := ha.busy hclear hother
    cases hres : result with
    | noneBest => exact absurd hres hne
    | zeroBest => exact hm.lt_of_busy ((hscan.first hres).2.2.2 a ⟨ha.inside, ha.isOpen⟩ hbusy)
    | otherBest =>
      -- another block is not the first one
      rcases (hscan.other hres).2.1 with ⟨k, hk, hkw, hbit⟩
      have hag := (hwritten hne).cleared k hkw
      rw [hzero, hclear k hk, hbit] at hag
      cases hag

/-- The universe net and a net 1 with prefix 00/2: a block of 3 bits is found if one is open. -/
theorem inetAutoNet_prefers_octet : ∃ σ, runOps octetFamily Config.empty
      [.insert 0 (.net ['0', '0'] 0 [] []), .insert 1 (.net ['0', '0'] 2 [] [])] = some σ ∧
    ∃ b result p, inetAutoNet σ.state.tree 3 0 3 ⟨0, [0x00]⟩ ⟨0, b⟩ .noneBest 0 =
        .ok (result, p) ∧
      (result = .noneBest ↔ ¬ ∃ a, OpenBlock σ.state.tree ⟨0, [0x00]⟩ 3 a) := by
  have hrun : (runOps octetFamily Config.empty
      [.insert 0 (.net ['0', '0'] 0 [] []), .insert 1 (.net ['0', '0'] 2 [] [])]).map (fun σ =>
        σ.dir 0) = some (some ⟨.net, ⟨0, [0x00]⟩⟩) := by decide +kernel
  rcases Option.map_eq_some_iff.1 hrun with ⟨σ, hσ, hdir⟩
  have hnets : runOps octetFamily Config.empty
      ([(0, ['0', '0'], 0), (1, ['0', '0'], 2)].map fun n =>
        .insert n.1 (.net n.2.1 n.2.2 [] [])) = some σ := hσ
  rcases natural_of_run (run_of_nets hnets) with rfl | ⟨hvalid, hnat⟩
  · cases hdir
  · rcases inetAutoNet_prefers hvalid.sound.wf hnat hdir (show 0 < 3 by decide) (by decide) with
      ⟨b, result, p, _, hok, hiff, _⟩
    exact ⟨σ, hσ, b, result, p, hok, hiff⟩

/-- The address `a` starts a block of `want` bits inside the prefix `q` of a net, in which there
are no blocks and no items, and for which no net is a longer match. -/
structure VacantIn (σ : Config) (q : InetPrefix) (want : ℕ) (a : BitStream) : Prop where
  inside : Agree q.bits q.stream a
  start : ∀ k, want ≤ k → a k = false
  no_block : ∀ {d x}, σ.state.tree.Covers x d → Agree want a x → σ.state.tree.bits d < want
  no_item : ∀ {x e}, σ.dir x = some e → Agree want a e.pfx.stream → e.pfx.bits < want
  longest : ∀ {m k}, σ.dir m = some ⟨.net, k⟩ → k.bits ≤ want → Agree k.bits k.stream a →
    k.bits ≤ q.bits

lemma OpenBlock.vacantIn {σ : Config} (h : Sound fam σ.state σ.dir)
    (ha : OpenBlock σ.state.tree q want a) : VacantIn σ q want a := by
  rcases h.wf.filing with ⟨r, hfile⟩
  refine ⟨ha.inside.symm, ha.start, fun hd hx => (ha.isOpen _ _ hd hx).1, fun hx hag => ?_,
    fun {m k} hm _ hag => ?_⟩
  · rcases hfile.located hx with ⟨b, hloc⟩
    rw [← hloc.bits]
    exact (ha.isOpen b _ hloc.mem hag).1
  · -- The block of a longer match would carry a net.
    rcases hfile.located hm with ⟨b, hloc⟩
    have hbits : σ.state.tree.bits b = k.bits := hloc.bits
    have hmem : σ.state.tree.Covers a b :=
      hfile.shape.cover.mem_of_agree hloc.mem (by rw [layout_len, hbits]; exact hag)
    by_contra hlong
    have hnil := ((ha.isOpen b a hmem (Agree.refl _ _)).2 (by omega)).1
    have hlisted : m ∈ σ.state.tree.items .net b := hloc.listed
    rw [hnil] at hlisted
    cases hlisted

/-- In every run that leaves no unnatural blocks behind, the command finds a vacant block inside the
net for which the net is the longest match, or reports that there is none. -/
theorem autoNet_of_run {fam : Family} {σ : Config}
    (hrun : Run fam (fun σ op => op.Aligned fam σ ∧ op.KeepsNatural σ) Config.empty σ)
    {net : DbObject} {q : InetPrefix} (hnet : σ.dir net = some ⟨.net, q⟩) {want : ℕ}
    (hlt : q.bits < want) (hmax : want < fam.bits) (bitstring : CString) (sub : DbObject) :
    inetAutoNetCmd fam σ.state net want bitstring sub =
        .error (.einetfull sub fam.netNetofAttribute net) ∨
      ∃ p : InetPrefix, inetAutoNetCmd fam σ.state net want bitstring sub =
          .ok (udbRadix16Encode p.octets ++ ' ' :: decimal p.bits) ∧ p.bits ≤ want ∧
        VacantIn σ q want p.cleared := by
  rcases natural_of_run hrun with rfl | ⟨hvalid, hnat⟩
  · cases hnet
  · rcases hvalid.sound.wf.scan hnat hnet hlt hmax with
      ⟨b, result, p, g, hreach, hok, hscan, hwritten⟩
    rw [hvalid.autoNetCmd_eq hnet hlt hmax bitstring sub hreach hok]
    by_cases hne : result = .noneBest
    · exact .inl (if_neg (not_not_intro hne))
    · exact .inr ⟨p, if_pos hne, hscan.bits_le hne,
        (hscan.openBlock (hwritten hne) hne hlt).vacantIn hvalid.sound⟩

/-- The universe net and a net 1 with prefix 00/2. -/
theorem autoNet_of_run_octet : ∃ σ, runOps octetFamily Config.empty
      [.insert 0 (.net ['0', '0'] 0 [] []), .insert 1 (.net ['0', '0'] 2 [] [])] = some σ ∧
    inetAutoNetCmd octetFamily σ.state 0 3 ['3'] 5 = .ok ['8', '0', ' ', '1'] ∧
    ∃ p : InetPrefix, udbRadix16Encode p.octets ++ ' ' :: decimal p.bits = ['8', '0', ' ', '1'] ∧
      VacantIn σ ⟨0, [0x00]⟩ 3 p.cleared := by
  have hrun : (runOps octetFamily Config.empty
      [.insert 0 (.net ['0', '0'] 0 [] []), .insert 1 (.net ['0', '0'] 2 [] [])]).map (fun σ =>
        (σ.dir 0, (inetAutoNetCmd octetFamily σ.state 0 3 ['3'] 5).toOption)) =
      some (some ⟨.net, ⟨0, [0x00]⟩⟩, some ['8', '0', ' ', '1']) := by decide +kernel
  rcases Option.map_eq_some_iff.1 hrun with ⟨σ, hσ, hfields⟩
  rcases Prod.mk.inj hfields with ⟨hdir, hcmd⟩
  have hok : inetAutoNetCmd octetFamily σ.state 0 3 ['3'] 5 = .ok ['8', '0', ' ', '1'] := by
    cases hres : inetAutoNetCmd octetFamily σ.state 0 3 ['3'] 5 with
    | error err =>
      rw [hres] at hcmd
      cases hcmd
    | ok text =>
      rw [hres] at hcmd
      rw [Option.some.inj hcmd]
  refine ⟨σ, hσ, hok, ?_⟩
  have hnets : runOps octetFamily Config.empty
      ([(0, ['0', '0'], 0), (1, ['0', '0'], 2)].map fun n =>
        .insert n.1 (.net n.2.1 n.2.2 [] [])) = some σ := hσ
  rcases autoNet_of_run (run_of_nets hnets) hdir
    (show 0 < 3 by decide) (by decide) ['3'] 5 with hfull | ⟨p, hp, _, hvacant⟩
  · cases hok.symm.trans hfull
  · exact ⟨p, (Except.ok.inj (hok.symm.trans hp)).symm, hvacant⟩

/-- Net 3, with prefix 00/2, was deleted while node 4 stayed at 09: its block is taken for one of 4
bits, and the prefix 08/6 is offered as vacant although the node is there. -/
theorem autoNet_over_node : ∃ σ, runOps octetFamily Config.empty
      [.insert 0 (.net ['0', '0'] 0 [] []), .insert 1 (.net ['8', '0'] 1 [] []),
        .insert 2 (.net ['4', '0'] 2 [] []), .insert 3 (.net ['0', '0'] 2 [] []),
        .insert 4 (.node ['0', '9']), .delete 3 0 none] = some σ ∧
    inetAutoNetCmd octetFamily σ.state 0 6 ['6'] 5 =
      .ok (udbRadix16Encode [0x08] ++ ' ' :: decimal 5) ∧
    σ.dir 4 = some ⟨.node, ⟨8, [0x09]⟩⟩ ∧
    ¬ VacantIn σ ⟨0, [0x00]⟩ 6 (InetPrefix.cleared ⟨5, [0x08]⟩) := by
  have hrun : (runOps octetFamily Config.empty
      [.insert 0 (.net ['0', '0'] 0 [] []), .insert 1 (.net ['8', '0'] 1 [] []),
        .insert 2 (.net ['4', '0'] 2 [] []), .insert 3 (.net ['0', '0'] 2 [] []),
        .insert 4 (.node ['0', '9']), .delete 3 0 none]).map (fun σ =>
          ((inetAutoNetCmd octetFamily σ.state 0 6 ['6'] 5).toOption, σ.dir 4)) =
      some (some (udbRadix16Encode [0x08] ++ ' ' :: decimal 5),
        some ⟨.node, ⟨8, [0x09]⟩⟩) := by decide +kernel
  rcases Option.map_eq_some_iff.1 hrun with ⟨σ, hσ, hfields⟩
  rcases Prod.mk.inj hfields with ⟨hcmd, hdir⟩
  refine ⟨σ, hσ, ?_, hdir, fun hvacant => ?_⟩
  · cases hres : inetAutoNetCmd octetFamily σ.state 0 6 ['6'] 5 with
    | error err =>
      rw [hres] at hcmd
      cases hcmd
    | ok text =>
      rw [hres] at hcmd
      rw [Option.some.inj hcmd]
  · have hag : Agree 6 (InetPrefix.cleared ⟨5, [0x08]⟩) (InetPrefix.stream ⟨8, [0x09]⟩) := by
      unfold Agree
      decide
    exact absurd (hvacant.no_item hdir hag) (by decide)

end Nets

end Inet
end Unameit
