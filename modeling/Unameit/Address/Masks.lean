import Mathlib.Data.List.TakeWhile
import Unameit.Address.CommonBits
import Unameit.Lib.Int32
import Unameit.NetCheck.Basic

/-!
# Address.Masks — masks and neighbours of addresses

The remaining commands on the texts of addresses: the number of bits of a mask, the masks
themselves, and the addresses before and after an address.  On the bits they are what their names
say, as long as the numbers of bits are values of an `int`.
-/

namespace Unameit
namespace Address

open BitStream
open List
open NetCheck (unameitAddressMaskBits)

/-! ## Commands -/

/-- `Mask_Bits` as computed with values of an `int`. -/
def maskBits (s : CString) : ℤ :=
  int32 (unameitAddressMaskBits s)

/-- `Make_Mask` as computed with values of an `int`.  Without overflow it is `makeMask`. -/
def makeMaskInt (len bits : ℤ) : Except Fault CString :=
  if len < 0 then .error .badLength
  else
    let count := int32 |bits|
    if int32 (8 * len) < count then .error .badNumbits
    else
      let n := int32 (2 * len)
      let uniform := count / 4
      let rest := (count % 4).toNat
      let zeros := List.replicate (int32 (n - uniform - 1)).toNat '0'
      let ones := List.replicate uniform.toNat 'f'
      if 0 ≤ bits then
        .ok (ones ++ (if uniform ≠ n then [['0', '8', 'c', 'e'].getD rest '0'] else []) ++ zeros)
      else
        .ok (zeros ++ (if uniform ≠ n then [['0', '1', '3', '7'].getD rest '0'] else []) ++ ones)

/-- `Increment` from the last digit on. -/
def incrementFrom : CString → CString
  | [] => []
  | c :: s =>
    if c = '9' then 'a' :: s
    else if c = 'f' then '0' :: incrementFrom s
    else Char.ofNat (c.toNat + 1) :: s

def increment (s : CString) : CString :=
  (incrementFrom s.reverse).reverse

/-- `Decrement` from the last digit on. -/
def decrementFrom : CString → CString
  | [] => []
  | c :: s =>
    if c = 'a' then '9' :: s
    else if c = '0' then 'f' :: decrementFrom s
    else Char.ofNat (c.toNat - 1) :: s

def decrement (s : CString) : CString :=
  (decrementFrom s.reverse).reverse

/-! ## Numbers -/

/-- The number of a text. -/
def number (s : CString) : ℕ :=
  Nat.ofDigits 16 (s.reverse.map digitValue)

/-- The text of digits. -/
def hexDigits (xs : List (Fin 16)) : CString :=
  xs.map fun x : Fin 16 => hexChar x.1

/-- The number of digits, the last one first. -/
def ofHexDigits (xs : List (Fin 16)) : ℕ :=
  Nat.ofDigits 16 (xs.map Fin.val)

lemma exists_hexDigits {s : CString} (h : ∀ c ∈ s, (hexValue c).isSome = true) :
    ∃ xs, s = hexDigits xs := by
  induction s with
  | nil => exact ⟨[], rfl⟩
  | cons c s ih =>
    obtain ⟨hc, hs⟩ := forall_mem_cons.1 h
    obtain ⟨xs, rfl⟩ := ih hs
    obtain ⟨x, hx⟩ := Option.isSome_iff_exists.1 hc
    obtain ⟨hlt, rfl⟩ := hexChar_of_hexValue hx
    exact ⟨⟨x, hlt⟩ :: xs, rfl⟩

lemma isSome_hexValue_hexDigits {xs : List (Fin 16)} :
    ∀ c ∈ hexDigits xs, (hexValue c).isSome = true := by
  intro c hc
  obtain ⟨x, -, rfl⟩ := mem_map.1 hc
  rw [hexValue_hexChar x.1 x.2]
  rfl

lemma number_hexDigits (xs : List (Fin 16)) : number (hexDigits xs).reverse = ofHexDigits xs := by
  rw [number, reverse_reverse, hexDigits, map_map, ofHexDigits]
  congr 1
  exact map_congr_left fun x _ => digitValue_hexChar x.1 x.2

lemma ofHexDigits_lt (xs : List (Fin 16)) : ofHexDigits xs < 16 ^ xs.length := by
  have h := Nat.ofDigits_lt_base_pow_length (b := 16) (l := xs.map Fin.val) (by decide) (by simp)
  rwa [length_map] at h

lemma incrementFrom_cons (x : Fin 16) (s : CString) :
    incrementFrom (hexChar x.1 :: s) =
      if x = 15 then hexChar 0 :: incrementFrom s else hexChar (x + 1).1 :: s := by
  fin_cases x <;> rfl

lemma decrementFrom_cons (x : Fin 16) (s : CString) :
    decrementFrom (hexChar x.1 :: s) =
      if x = 0 then hexChar 15 :: decrementFrom s else hexChar (x - 1).1 :: s := by
  fin_cases x <;> rfl

lemma incrementFrom_hexDigits (xs : List (Fin 16)) :
    ∃ ys, incrementFrom (hexDigits xs) = hexDigits ys ∧ ys.length = xs.length ∧
      decrementFrom (hexDigits ys) = hexDigits xs ∧
      ofHexDigits ys = (ofHexDigits xs + 1) % 16 ^ xs.length := by
  induction xs with
  | nil => exact ⟨[], rfl, rfl, rfl, rfl⟩
  | cons x xs ih =>
    have hlt := ofHexDigits_lt xs
    have hinc := incrementFrom_cons x (hexDigits xs)
    have hval : ofHexDigits (x :: xs) = x.1 + 16 * ofHexDigits xs := Nat.ofDigits_cons ..
    have hpow : 16 ^ (x :: xs).length = 16 * 16 ^ xs.length := by
      rw [length_cons, pow_succ, Nat.mul_comm]
    by_cases hx : x = 15
    · obtain ⟨ys, hys, hlen, hdec, hnum⟩ := ih
      rw [if_pos hx, hys] at hinc
      refine ⟨0 :: ys, hinc, by simp [hlen], ?_, ?_⟩
      · refine (decrementFrom_cons 0 (hexDigits ys)).trans ?_
        rw [if_pos rfl, hdec, hx]
        rfl
      · have hcarry : x.1 + 16 * ofHexDigits xs + 1 = 16 * (ofHexDigits xs + 1) := by
          rw [hx]
          show 15 + _ + 1 = _
          omega
        rw [hval, hpow, hcarry, Nat.mul_mod_mul_left, ← hnum]
        exact (Nat.ofDigits_cons ..).trans (Nat.zero_add _)
    · rw [if_neg hx] at hinc
      obtain ⟨hsucc, hne⟩ :=
        (by decide : ∀ x : Fin 16, x ≠ 15 → (x + 1).1 = x.1 + 1 ∧ x + 1 ≠ 0) x hx
      refine ⟨(x + 1) :: xs, hinc, rfl, ?_, ?_⟩
      · refine (decrementFrom_cons (x + 1) (hexDigits xs)).trans ?_
        rw [if_neg hne, add_sub_cancel_right]
        rfl
      · rw [hval, hpow, Nat.mod_eq_of_lt (by omega)]
        refine (Nat.ofDigits_cons ..).trans ?_
        show (x + 1).1 + 16 * ofHexDigits xs = _
        omega

lemma decrementFrom_hexDigits (xs : List (Fin 16)) :
    ∃ ys, decrementFrom (hexDigits xs) = hexDigits ys ∧ ys.length = xs.length ∧
      incrementFrom (hexDigits ys) = hexDigits xs := by
  induction xs with
  | nil => exact ⟨[], rfl, rfl, rfl⟩
  | cons x xs ih =>
    have hdec := decrementFrom_cons x (hexDigits xs)
    by_cases hx : x = 0
    · obtain ⟨ys, hys, hlen, hinc⟩ := ih
      rw [if_pos hx, hys] at hdec
      refine ⟨15 :: ys, hdec, by simp [hlen], ?_⟩
      refine (incrementFrom_cons 15 (hexDigits ys)).trans ?_
      rw [if_pos rfl, hinc, hx]
      rfl
    · rw [if_neg hx] at hdec
      have hne := (by decide : ∀ x : Fin 16, x ≠ 0 → x - 1 ≠ 15) x hx
      refine ⟨(x - 1) :: xs, hdec, rfl, ?_⟩
      refine (incrementFrom_cons (x - 1) (hexDigits xs)).trans ?_
      rw [if_neg hne, sub_add_cancel]
      rfl

/-- The neighbours of an address of `L` digits are one more and one less modulo `16 ^ L`. -/
structure Neighbours (s : CString) : Prop where
  digits : ∀ c ∈ increment s ++ decrement s, (hexValue c).isSome = true
  length : (increment s).length = s.length ∧ (decrement s).length = s.length
  increment : number (increment s) = (number s + 1) % 16 ^ s.length
  decrement : number (decrement s) = (number s + 16 ^ s.length - 1) % 16 ^ s.length
  decrement_increment : Address.decrement (Address.increment s) = s
  increment_decrement : Address.increment (Address.decrement s) = s

lemma neighbours {s : CString} (h : ∀ c ∈ s, (hexValue c).isSome = true) : Neighbours s := by
  obtain ⟨xs, hxs⟩ := exists_hexDigits (s := s.reverse) fun c hc => h c (mem_reverse.1 hc)
  obtain ⟨ys, hys, hylen, hydec, hynum⟩ := incrementFrom_hexDigits xs
  obtain ⟨zs, hzs, hzlen, hzinc⟩ := decrementFrom_hexDigits xs
  obtain rfl : s = (hexDigits xs).reverse := by rw [← hxs, reverse_reverse]
  have hlen : (hexDigits xs).reverse.length = xs.length := by simp [hexDigits]
  have hinc : Address.increment (hexDigits xs).reverse = (hexDigits ys).reverse := by
    rw [Address.increment, reverse_reverse, hys]
  have hdec : Address.decrement (hexDigits xs).reverse = (hexDigits zs).reverse := by
    rw [Address.decrement, reverse_reverse, hzs]
  obtain ⟨ws, hws, -, -, hznum⟩ := incrementFrom_hexDigits zs
  have hback : ofHexDigits ws = ofHexDigits xs := by
    rw [← number_hexDigits, ← hws, hzinc, number_hexDigits]
  have hlt := ofHexDigits_lt zs
  rw [hback, hzlen] at hznum
  rw [hzlen] at hlt
  refine ⟨fun c hc => ?_, ?_, ?_, ?_, ?_, ?_⟩
  · rw [hinc, hdec, mem_append, mem_reverse, mem_reverse] at hc
    exact hc.elim (isSome_hexValue_hexDigits c) (isSome_hexValue_hexDigits c)
  · rw [hinc, hdec]
    simp [hexDigits, hylen, hzlen]
  · rw [hinc, hlen, number_hexDigits, number_hexDigits, hynum]
  · rw [hdec, hlen, number_hexDigits, number_hexDigits, hznum]
    rcases Nat.lt_or_ge (ofHexDigits zs + 1) (16 ^ xs.length) with hsmall | hlarge
    · rw [Nat.mod_eq_of_lt hsmall, Nat.add_right_comm, Nat.add_sub_cancel, Nat.add_mod_right,
        Nat.mod_eq_of_lt hlt]
    · have hmax : ofHexDigits zs + 1 = 16 ^ xs.length := by omega
      rw [hmax, Nat.mod_self, Nat.zero_add, Nat.mod_eq_of_lt (by omega)]
      omega
  · rw [hinc, Address.decrement, reverse_reverse, hydec]
  · rw [hdec, Address.increment, reverse_reverse, hzinc]

/-! ## Counting ones -/

/-- The text of `n` ones followed by zeros. -/
def onesText (digits n : ℕ) : CString :=
  hexText digits fun k => decide (k < n)

/-- The digit with `n` ones followed by zeros. -/
def boundaryDigit (n : ℕ) : Char :=
  ['0', '8', 'c', 'e'].getD n '0'

lemma window_not (f : BitStream) (n : ℕ) : window (fun k => !f k) n 4 = 15 ^^^ window f n 4 := by
  have h := digit_window .xor (fun _ => true) f n
  rw [window_true] at h
  simpa [BitwiseOp.digit, BitwiseOp.bit] using h.symm

/-- Ones followed by zeros, digit by digit. -/
theorem onesText_eq {digits n : ℕ} (hn : n ≤ 4 * digits) :
    onesText digits n = replicate (n / 4) 'f' ++
      (if n / 4 ≠ digits then [boundaryDigit (n % 4)] else []) ++
      replicate (digits - n / 4 - 1) '0' := by
  have hwindow : ∀ k, window (fun k => decide (k < n)) (4 * k) 4 =
      15 ^^^ if 4 * k + 4 ≤ n then 0 else if n ≤ 4 * k then 15 else 2 ^ (4 * k + 4 - n) - 1 := by
    intro k
    rw [← window_ones, ← window_not]
    refine (window_eq_iff _ _ _ _).2 fun m _ _ => ?_
    simp only [← decide_not, Nat.not_le]
  rw [onesText, hexText_parts (i := n / 4) (d := 15) (e := 0) (by omega) (fun k hk => ?_)
    fun k hk _ => ?_]
  · refine congrArg (· ++ _) (congrArg (_ ++ ·) (ite_congr rfl (fun _ => ?_) fun _ => rfl))
    have hpos : 4 * (n / 4) + 4 - n = 4 - n % 4 := by omega
    have hzero : n ≤ 4 * (n / 4) ↔ n % 4 = 0 := by omega
    rw [hwindow, if_neg (by omega), hpos]
    simp only [hzero]
    have hrest4 := Nat.mod_lt n (show 0 < 4 by decide)
    interval_cases n % 4 <;> rfl
  · rw [hwindow, if_pos (by omega)]
    rfl
  · rw [hwindow, if_neg (by omega), if_pos (by omega)]
    rfl

lemma onesText_all (k : ℕ) : onesText k (4 * k) = replicate k 'f' := by
  have hdiv : 4 * k / 4 = k := by omega
  rw [onesText_eq le_rfl, hdiv]
  simp

lemma onesText_boundary (k z : ℕ) {j : ℕ} (hj : j < 4) :
    onesText (k + 1 + z) (4 * k + j) = replicate k 'f' ++ boundaryDigit j :: replicate z '0' := by
  have hdiv : (4 * k + j) / 4 = k := by omega
  have hmod : (4 * k + j) % 4 = j := by omega
  have hzeros : k + 1 + z - k - 1 = z := by omega
  rw [onesText_eq (by omega), hdiv, hmod, hzeros, if_pos (by omega), append_assoc]
  rfl

lemma maskBits_ones (k : ℕ) (t : CString) (ht : t.head? ≠ some 'f') :
    (replicate k 'f' ++ t).takeWhile (· = 'f') = replicate k 'f' ∧
      (replicate k 'f' ++ t).dropWhile (· = 'f') = t := by
  have hall : ∀ c ∈ replicate k 'f', decide (c = 'f') = true := by simp
  rw [takeWhile_append_of_pos hall, dropWhile_append_of_pos hall]
  cases t with
  | nil => simp
  | cons c t =>
    have hc : c ≠ 'f' := by simpa using ht
    simp [hc]

lemma unameitAddressMaskBits_onesText {digits n : ℕ} (hn : n ≤ 4 * digits) :
    unameitAddressMaskBits (onesText digits n) = n := by
  rcases hn.lt_or_eq with hlt | rfl
  · obtain ⟨k, j, z, hj, rfl, rfl⟩ : ∃ k j z, j < 4 ∧ n = 4 * k + j ∧ digits = k + 1 + z :=
      ⟨n / 4, n % 4, digits - n / 4 - 1, by omega, by omega, by omega⟩
    have hhead : (boundaryDigit j :: replicate z '0').head? ≠ some 'f' := by
      interval_cases j <;> simp [boundaryDigit]
    obtain ⟨htake, hdrop⟩ := maskBits_ones k _ hhead
    rw [onesText_boundary k z hj, unameitAddressMaskBits, htake, hdrop]
    interval_cases j <;> simp [boundaryDigit]
  · obtain ⟨htake, hdrop⟩ := maskBits_ones digits [] (by simp)
    rw [append_nil] at htake hdrop
    rw [onesText_all, unameitAddressMaskBits, htake, hdrop]
    simp

/-- A result that is not negative tells that the text is one of ones followed by zeros. -/
theorem exists_eq_onesText (s : CString) :
    unameitAddressMaskBits s = -1 ∨ ∃ n ≤ 4 * s.length, s = onesText s.length n := by
  have hones : s.takeWhile (· = 'f') = replicate (s.takeWhile (· = 'f')).length 'f' :=
    eq_replicate_of_mem fun c hc => by simpa using mem_takeWhile_imp hc
  have hparts := takeWhile_append_dropWhile (p := (· = 'f')) (l := s)
  have hzeros : ∀ t : CString, t.dropWhile (· = '0') = [] → t = replicate t.length '0' := fun t ht =>
    eq_replicate_of_mem fun c hc => by simpa using dropWhile_eq_nil_iff.1 ht c hc
  generalize (s.takeWhile (· = 'f')).length = k at hones
  -- a digit with some ones, and zeros
  have hdigit : ∀ j < 4, ∀ t, s.dropWhile (· = 'f') = boundaryDigit j :: t →
      t.dropWhile (· = '0') = [] → ∃ n ≤ 4 * s.length, s = onesText s.length n := by
    intro j hj t hdrop ht
    rw [hones, hdrop, hzeros t ht] at hparts
    have hlen : s.length = k + 1 + t.length := by
      rw [← hparts]
      simp
      omega
    exact ⟨4 * k + j, by omega, by rw [hlen, onesText_boundary k _ hj, hparts]⟩
  unfold unameitAddressMaskBits
  split
  all_goals
    dsimp only
    split_ifs with hrest
  · exact .inr (hdigit 3 (by decide) _ ‹_› hrest)
  · exact .inl rfl
  · exact .inr (hdigit 2 (by decide) _ ‹_› hrest)
  · exact .inl rfl
  · exact .inr (hdigit 1 (by decide) _ ‹_› hrest)
  · exact .inl rfl
  · right
    cases hdrop : s.dropWhile (· = 'f') with
    | nil =>
      rw [hdrop, append_nil, hones] at hparts
      have hlen : s.length = k := by rw [← hparts, length_replicate]
      exact ⟨4 * k, by omega, by rw [hlen, onesText_all, hparts]⟩
    | cons c t =>
      obtain ⟨rfl, ht⟩ : c = '0' ∧ t.dropWhile (· = '0') = [] := by
        rw [hdrop] at hrest
        simpa [dropWhile_eq_nil_iff] using hrest
      exact hdigit 0 (by decide) t hdrop ht
  · exact .inl rfl

/-- `Mask_Bits` is right for a text: it returns a number that is not negative exactly for ones
followed by zeros, and then the number of ones. -/
def CountsOnes (s : CString) : Prop :=
  (0 ≤ maskBits s ↔ ∃ n ≤ 4 * s.length, s = onesText s.length n) ∧
    ∀ n ≤ 4 * s.length, s = onesText s.length n → maskBits s = n

lemma countsOnes_iff (digits : ℕ) :
    (∀ s : CString, s.length = digits → CountsOnes s) ↔ 4 * digits < 2 ^ 31 := by
  constructor
  · intro h
    by_contra hlarge
    have hlen : (onesText digits (2 ^ 31)).length = digits := length_hexText ..
    have hones := (h _ hlen).2 (2 ^ 31) (by omega) (by rw [hlen])
    rw [maskBits, unameitAddressMaskBits_onesText (by omega)] at hones
    exact absurd hones (by decide)
  · rintro hdigits s rfl
    have hcount : ∀ n ≤ 4 * s.length, s = onesText s.length n → maskBits s = n := by
      intro n hn hs
      rw [maskBits, hs, unameitAddressMaskBits_onesText hn]
      exact int32_of_lt (by omega) (by omega)
    refine ⟨⟨fun hpos => ?_, ?_⟩, hcount⟩
    · rcases exists_eq_onesText s with heq | hones
      · rw [maskBits, heq] at hpos
        exact absurd hpos (by decide)
      · exact hones
    · rintro ⟨n, hn, hs⟩
      rw [hcount n hn hs]
      exact Int.natCast_nonneg n

/-! ## Masks -/

lemma makeMask_left {octets b : ℕ} (hb : b ≤ 8 * octets) :
    makeMask octets b = .ok (onesText (2 * octets) b) := by
  unfold makeMask
  simp only [Nat.abs_cast]
  rw [if_neg (by omega), if_neg (by omega), if_pos (by omega)]
  have hn : (2 * (octets : ℤ)).toNat = 2 * octets := by omega
  have huniform : ((b : ℤ) / 4).toNat = b / 4 := by omega
  have hrest : ((b : ℤ) % 4).toNat = b % 4 := by omega
  rw [hn, huniform, hrest, onesText_eq (by omega)]
  rfl

/-- Without overflow. -/
theorem makeMaskInt_eq {octets : ℕ} {bits : ℤ} (hoctets : 8 * octets < 2 ^ 31)
    (hbits : |bits| ≤ 8 * octets) : makeMaskInt octets bits = makeMask octets bits := by
  have hpos := abs_nonneg bits
  unfold makeMaskInt makeMask
  simp only [int32_of_lt (x := |bits|) (by omega) (by omega),
    int32_of_lt (x := 8 * (octets : ℤ)) (by omega) (by omega),
    int32_of_lt (x := 2 * (octets : ℤ)) (by omega) (by omega),
    int32_of_lt (x := 2 * (octets : ℤ) - |bits| / 4 - 1) (by omega) (by omega)]
  have hzeros : (2 * (octets : ℤ) - |bits| / 4 - 1).toNat =
      (2 * (octets : ℤ)).toNat - (|bits| / 4).toNat - 1 := by
    omega
  have hfull : |bits| / 4 ≠ 2 * octets ↔ (|bits| / 4).toNat ≠ (2 * (octets : ℤ)).toNat := by
    omega
  simp only [hzeros, hfull]

def complementDigit (c : Char) : Char :=
  digitChar (15 ^^^ digitValue c)

lemma hexText_not (n : ℕ) (f : BitStream) :
    hexText n (fun k => !f k) = (hexText n f).map complementDigit := by
  have hchar : ∀ i < 16, complementDigit (hexChar i) = hexChar (15 ^^^ i) := by decide
  rw [hexText, hexText, map_map]
  refine map_congr_left fun k _ => ?_
  rw [Function.comp_apply, hchar _ (window_lt_sixteen f _), window_not]

/-- The laws of the masks with `b` bits, for addresses of a number of octets. -/
structure MaskLaws (octets b : ℕ) : Prop where
  mask : ∃ m, makeMaskInt octets b = .ok m ∧ maskBits m = b ∧
    makeMaskInt octets (b - (8 * octets : ℕ)) = .ok (m.map complementDigit)
  compose (f g : BitStream) (hf : ∀ k, b ≤ k → k < 8 * octets → f k = false) :
    (do
      let mask ← makeMaskInt octets b
      let host ← bitwise .mask (hexText (2 * octets) g) mask
      bitwise .or (hexText (2 * octets) f) host) =
    .ok (hexText (2 * octets) fun k => if k < b then f k else g k)

lemma maskLaws {octets b : ℕ} (hoctets : 8 * octets < 2 ^ 31) (hb : b ≤ 8 * octets) :
    MaskLaws octets b := by
  have hleft : makeMaskInt octets b = .ok (onesText (2 * octets) b) := by
    rw [makeMaskInt_eq hoctets (by rw [Nat.abs_cast]; omega), makeMask_left hb]
  have hlen : (onesText (2 * octets) b).length = 2 * octets := length_hexText ..
  refine ⟨⟨_, hleft, ?_, ?_⟩, fun f g hf => ?_⟩
  · exact ((countsOnes_iff _).2 (by omega) _ hlen).2 b (by omega) (by rw [hlen])
  · rw [onesText, ← hexText_not, makeMaskInt_eq hoctets (by rw [abs_of_nonpos (by omega)]; omega)]
    rcases hb.lt_or_eq with hlt | rfl
    · rw [makeMask_right hlt]
      refine congrArg Except.ok (hexText_congr fun k _ => ?_)
      simp only [← decide_not, Nat.not_lt]
    · rw [Int.sub_self]
      refine (makeMask_left (Nat.zero_le _)).trans (congrArg _ (hexText_congr fun k hk => ?_))
      have hk' : k < 8 * octets := by omega
      simp [hk']
  · rw [hleft]
    show (do
      let host ← bitwise .mask (hexText (2 * octets) g) (onesText (2 * octets) b)
      bitwise .or (hexText (2 * octets) f) host) = _
    rw [onesText, bitwise_hexText _ (by omega)]
    refine (bitwise_hexText .or (by omega) f _).trans (congrArg _ (hexText_congr fun k hk => ?_))
    by_cases hkb : k < b
    · simp [BitwiseOp.bit, hkb]
    · simp [BitwiseOp.bit, hkb, hf k (Nat.not_lt.1 hkb) (by omega)]

/-- From `2 ^ 28` octets on the number of bits of an address is not a value of an `int`. -/
theorem makeMaskInt_overflow {octets : ℕ} (h : 2 ^ 31 ≤ 8 * octets) :
    makeMaskInt octets (2 ^ 31 - 1 : ℕ) = .error .badNumbits := by
  have hlt : int32 (8 * octets) < 2 ^ 31 - 1 := by
    unfold int32
    rw [Int.bmod_def]
    split_ifs <;> omega
  unfold makeMaskInt
  rw [if_neg (by omega), if_pos]
  exact hlt

/-- **Commands on addresses.**  The laws of the masks hold for all numbers of bits, and `Mask_Bits`
is right, exactly for addresses whose number of bits is a value of an `int`; the neighbours of an
address are right for every length. -/
theorem address_commands_iff (octets digits : ℕ) :
    ((∀ b ≤ 8 * octets, b < 2 ^ 31 → MaskLaws octets b) ↔ 8 * octets < 2 ^ 31) ∧
      ((∀ s : CString, s.length = digits → CountsOnes s) ↔ 4 * digits < 2 ^ 31) ∧
      ∀ s : CString, (∀ c ∈ s, (hexValue c).isSome = true) → Neighbours s := by
  refine ⟨⟨fun h => ?_, fun h b hb _ => maskLaws h hb⟩, countsOnes_iff digits, fun s => neighbours⟩
  by_contra hlarge
  obtain ⟨m, hm, -⟩ := (h (2 ^ 31 - 1) (by omega) (by omega)).mask
  rw [makeMaskInt_overflow (by omega)] at hm
  cases hm

/-- The mask without bits of an address of `2 ^ 28` octets is refused. -/
theorem makeMaskInt_refuses_zero : ∃ octets b : ℕ, b ≤ 8 * octets ∧ b < 2 ^ 31 ∧
    makeMaskInt octets b = .error .badNumbits ∧ ¬ MaskLaws octets b := by
  have hrefused : makeMaskInt (2 ^ 28 : ℕ) (0 : ℕ) = .error .badNumbits := by decide
  refine ⟨2 ^ 28, 0, by omega, by omega, hrefused, fun h => ?_⟩
  obtain ⟨m, hm, -⟩ := h.mask
  rw [hrefused] at hm
  cases hm

end Address
end Unameit
