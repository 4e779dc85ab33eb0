import Unameit.Inet.Prefix

/-!
# Address — texts of addresses

Addresses are texts of lower case hexadecimal digits, two for each octet.  The commands of
`libaddress` combine such texts digit by digit and make masks of a given number of bits.  The text of
a bit stream is `hexText`; on such texts the commands compute the operations on the bits.
-/

namespace Unameit
namespace Address

open BitStream
open List

/-! ## Commands -/

inductive Fault
  | malformed (address : CString)
  | lengthsDiffer (a b : CString)
  | badLength
  | badNumbits
  deriving DecidableEq, Repr

inductive BitwiseOp
  | and
  | or
  | xor
  | mask
  deriving DecidableEq, Repr

def BitwiseOp.digit : BitwiseOp → ℕ → ℕ → ℕ
  | .and, a, b => a &&& b
  | .mask, a, b => a &&& (15 ^^^ b)
  | .or, a, b => a ||| b
  | .xor, a, b => a ^^^ b

def digitValue (c : Char) : ℕ :=
  if '9' < c then c.toNat - 'a'.toNat + 10 else c.toNat - '0'.toNat

def digitChar (i : ℕ) : Char :=
  if 9 < i then Char.ofNat ('a'.toNat + i - 10) else Char.ofNat ('0'.toNat + i)

def hexValue (c : Char) : Option ℕ :=
  if '0' ≤ c ∧ c ≤ '9' then some (c.toNat - '0'.toNat)
  else if 'a' ≤ c ∧ c ≤ 'f' then some (c.toNat - 'a'.toNat + 10)
  else none

/-- `Common_Bits_Table`: for two digits that differ, the number of bits of the prefix. -/
def commonBitsTable : List ℤ :=
  [-1,  3, -1,  2, -1, -1, -1,  1, -1, -1, -1, -1, -1, -1, -1,  0,
   -1, -1, -1, -1, -1, -1, -1, -1, -1, -1, -1, -1, -1, -1, -1, -1,
   -1, -1, -1,  3, -1, -1, -1, -1, -1, -1, -1, -1, -1, -1, -1, -1,
   -1, -1, -1, -1, -1, -1, -1, -1, -1, -1, -1, -1, -1, -1, -1, -1,
   -1, -1, -1, -1, -1,  3, -1,  2, -1, -1, -1, -1, -1, -1, -1, -1,
   -1, -1, -1, -1, -1, -1, -1, -1, -1, -1, -1, -1, -1, -1, -1, -1,
   -1, -1, -1, -1, -1, -1, -1,  3, -1, -1, -1, -1, -1, -1, -1, -1,
   -1, -1, -1, -1, -1, -1, -1, -1, -1, -1, -1, -1, -1, -1, -1, -1,
   -1, -1, -1, -1, -1, -1, -1, -1, -1,  3, -1,  2, -1, -1, -1,  1,
   -1, -1, -1, -1, -1, -1, -1, -1, -1, -1, -1, -1, -1, -1, -1, -1,
   -1, -1, -1, -1, -1, -1, -1, -1, -1, -1, -1,  3, -1, -1, -1, -1,
   -1, -1, -1, -1, -1, -1, -1, -1, -1, -1, -1, -1, -1, -1, -1, -1,
   -1, -1, -1, -1, -1, -1, -1, -1, -1, -1, -1, -1, -1,  3, -1,  2,
   -1, -1, -1, -1, -1, -1, -1, -1, -1, -1, -1, -1, -1, -1, -1, -1,
   -1, -1, -1, -1, -1, -1, -1, -1, -1, -1, -1, -1, -1, -1, -1,  3,
   -1, -1, -1, -1, -1, -1, -1, -1, -1, -1, -1, -1, -1, -1, -1, -1]

/-- The loop behind the first pair of digits that differ. -/
def commonBitsRest : CString → CString → ℤ → ℤ
  | [], [], bitCount => bitCount
  | a :: as, b :: bs, bitCount =>
    if a ≠ '0' then -1 else if b ≠ 'f' then -1 else commonBitsRest as bs bitCount
  | _, _, _ => -1

/-- The loop over equal digits.  The terminating NUL is no digit. -/
def commonBitsFrom : CString → CString → ℤ → ℤ
  | [], [], bitCount => bitCount
  | a :: as, b :: bs, bitCount =>
    match hexValue a, hexValue b with
    | some x, some y =>
      if x = y then commonBitsFrom as bs (bitCount + 4)
      else if commonBitsTable.getD (x <<< 4 ||| y) (-1) = -1 then -1
      else commonBitsRest as bs (bitCount + commonBitsTable.getD (x <<< 4 ||| y) (-1))
    | _, _ => -1
  | _, _, _ => -1

def unameitCommonBits (as bs : CString) : ℤ :=
  commonBitsFrom as bs 0

/-- The number of bits of an address of whole octets. -/
def octetBits (s : CString) : Except Fault ℕ :=
  let n := unameitCommonBits s s
  if n < 0 ∨ n % 8 ≠ 0 then .error (.malformed s) else .ok n.toNat

def bitwise (op : BitwiseOp) (s s' : CString) : Except Fault CString := do
  let n ← octetBits s
  let n' ← octetBits s'
  if n' ≠ n then .error (.lengthsDiffer s s')
  else return List.zipWith (fun a b => digitChar (op.digit (digitValue a) (digitValue b))) s s'

/-- `Make_Mask`: the first `bits` bits of an address of `len` octets, or the last ones if `bits` is
negative. -/
def makeMask (len bits : ℤ) : Except Fault CString :=
  if len < 0 then .error .badLength
  else if 8 * len < |bits| then .error .badNumbits
  else
    let n := (2 * len).toNat
    let uniform := (|bits| / 4).toNat
    let rest := (|bits| % 4).toNat
    if 0 ≤ bits then
      .ok (List.replicate uniform 'f' ++
        (if uniform ≠ n then [['0', '8', 'c', 'e'].getD rest '0'] else []) ++
        List.replicate (n - uniform - 1) '0')
    else
      .ok (List.replicate (n - uniform - 1) '0' ++
        (if uniform ≠ n then [['0', '1', '3', '7'].getD rest '0'] else []) ++
        List.replicate uniform 'f')

/-! ## Texts of bit streams -/

def hexChar (i : ℕ) : Char :=
  radix16.getD i '0'

def hexText (n : ℕ) (a : BitStream) : CString :=
  (List.range n).map fun k => hexChar (window a (4 * k) 4)

variable {n : ℕ} {f g : BitStream}

@[simp] lemma length_hexText (n : ℕ) (a : BitStream) : (hexText n a).length = n := by
  simp [hexText]

lemma digitValue_hexChar : ∀ i < 16, digitValue (hexChar i) = i := by
  decide

lemma digitChar_eq : ∀ i < 16, digitChar i = hexChar i := by
  decide

lemma hexValue_hexChar : ∀ x < 16, hexValue (hexChar x) = some x := by
  decide

lemma hexChar_ne_space : ∀ i < 16, hexChar i ≠ ' ' := by
  decide

lemma window_lt_sixteen (f : BitStream) (n : ℕ) : window f n 4 < 16 :=
  window_lt f n 4

def BitwiseOp.bit : BitwiseOp → Bool → Bool → Bool
  | .and, a, b => a && b
  | .mask, a, b => a && !b
  | .or, a, b => a || b
  | .xor, a, b => a ^^ b

lemma digit_window (op : BitwiseOp) (f g : BitStream) (n : ℕ) :
    op.digit (window f n 4) (window g n 4) = window (fun k => op.bit (f k) (g k)) n 4 := by
  apply Nat.eq_of_testBit_eq
  intro j
  have hones : Nat.testBit 15 j = decide (j < 4) := Nat.testBit_two_pow_sub_one 4 j
  by_cases hj : j < 4
  · cases op with
    | and => simp [BitwiseOp.digit, BitwiseOp.bit, testBit_window, hj]
    | or => simp [BitwiseOp.digit, BitwiseOp.bit, testBit_window, hj]
    | xor => simp [BitwiseOp.digit, BitwiseOp.bit, testBit_window, hj]
    | mask => simp [BitwiseOp.digit, BitwiseOp.bit, testBit_window, hj, hones]
  · cases op with
    | and => simp [BitwiseOp.digit, testBit_window, hj]
    | or => simp [BitwiseOp.digit, testBit_window, hj]
    | xor => simp [BitwiseOp.digit, testBit_window, hj]
    | mask => simp [BitwiseOp.digit, testBit_window, hj]

lemma commonBitsFrom_self {s : CString} (h : ∀ c ∈ s, (hexValue c).isSome = true) (m : ℤ) :
    commonBitsFrom s s m = m + 4 * s.length := by
  induction s generalizing m with
  | nil => simp [commonBitsFrom]
  | cons c s ih =>
    obtain ⟨hc, hs⟩ := forall_mem_cons.1 h
    obtain ⟨x, hx⟩ := Option.isSome_iff_exists.1 hc
    rw [commonBitsFrom, hx]
    dsimp only
    rw [if_pos rfl, ih hs, length_cons]
    push_cast
    ring

lemma octetBits_hexText (hn : n % 2 = 0) (a : BitStream) :
    octetBits (hexText n a) = .ok (4 * n) := by
  have hall : ∀ c ∈ hexText n a, (hexValue c).isSome = true := by
    intro c hc
    obtain ⟨k, -, rfl⟩ := mem_map.1 hc
    rw [hexValue_hexChar _ (window_lt_sixteen a _)]
    rfl
  unfold octetBits unameitCommonBits
  dsimp only
  rw [commonBitsFrom_self hall, length_hexText, if_neg (by omega)]
  congr 1
  omega

lemma bitwise_hexText (op : BitwiseOp) (hn : n % 2 = 0) (f g : BitStream) :
    bitwise op (hexText n f) (hexText n g) = .ok (hexText n fun k => op.bit (f k) (g k)) := by
  unfold bitwise
  rw [octetBits_hexText hn, octetBits_hexText hn]
  show (if 4 * n ≠ 4 * n then _ else _) = _
  rw [if_neg (by simp)]
  refine congrArg Except.ok ?_
  unfold hexText
  rw [zipWith_map, zipWith_self]
  refine map_congr_left fun k _ => ?_
  rw [digitValue_hexChar _ (window_lt_sixteen f _), digitValue_hexChar _ (window_lt_sixteen g _),
    digit_window, digitChar_eq _ (window_lt_sixteen _ _)]

lemma hexChar_injOn : ∀ i < 16, ∀ j < 16, hexChar i = hexChar j → i = j := by
  decide

/-- A text determines the bits. -/
theorem hexText_eq_iff : hexText n f = hexText n g ↔ Agree (4 * n) f g := by
  unfold hexText
  rw [map_inj_left]
  constructor
  · intro h k hk
    have heq := hexChar_injOn _ (window_lt_sixteen f _) _ (window_lt_sixteen g _)
      (h (k / 4) (mem_range.2 (by omega)))
    have hdiv := (window_div_eq_iff f g (n := 4 * (k / 4)) (w := 4) (k := 0)
      (Nat.zero_le _)).1 (by rw [heq])
    exact hdiv k (by omega) (by omega)
  · intro h k hk
    have hk' := mem_range.1 hk
    have hdiv := (window_div_eq_iff f g (n := 4 * k) (w := 4) (k := 0)
      (Nat.zero_le _)).2 fun m _ hm => h m (by omega)
    rw [pow_zero, Nat.div_one, Nat.div_one] at hdiv
    rw [hdiv]

lemma hexText_congr (h : Agree (4 * n) f g) : hexText n f = hexText n g :=
  hexText_eq_iff.2 h

lemma window_shift (a : BitStream) (c n w : ℕ) :
    window (fun k => a (c + k)) n w = window a (c + n) w := by
  apply Nat.eq_of_testBit_eq
  intro j
  rw [testBit_window, testBit_window]
  by_cases hj : j < w
  · have hpos : c + (n + w - 1 - j) = c + n + w - 1 - j := by omega
    rw [hpos]
  · simp [hj]

lemma hexText_add (m n : ℕ) (a : BitStream) :
    hexText (m + n) a = hexText m a ++ hexText n fun k => a (4 * m + k) := by
  unfold hexText
  rw [range_add, map_append, map_map]
  refine congrArg (_ ++ ·) (map_congr_left fun k _ => ?_)
  rw [Function.comp_apply, window_shift, Nat.mul_add]

lemma hexText_succ (n : ℕ) (f : BitStream) :
    hexText (n + 1) f = hexChar (window f 0 4) :: hexText n fun k => f (4 + k) := by
  rw [Nat.add_comm, hexText_add]
  rfl

/-! ## Masks -/

lemma hexText_eq_replicate {d : ℕ} (h : ∀ k < n, window f (4 * k) 4 = d) :
    hexText n f = List.replicate n (hexChar d) := by
  rw [eq_replicate_iff, length_hexText]
  refine ⟨rfl, fun c hc => ?_⟩
  obtain ⟨k, hk, rfl⟩ := mem_map.1 hc
  rw [h k (mem_range.1 hk)]

/-- A text with the same digit everywhere in front of a position and everywhere behind it. -/
theorem hexText_parts {i d e : ℕ} (hi : i ≤ n) (hfirst : ∀ k < i, window f (4 * k) 4 = d)
    (hlast : ∀ k, i < k → k < n → window f (4 * k) 4 = e) :
    hexText n f = List.replicate i (hexChar d) ++
      (if i ≠ n then [hexChar (window f (4 * i) 4)] else []) ++
      List.replicate (n - i - 1) (hexChar e) := by
  obtain ⟨m, rfl⟩ := Nat.exists_eq_add_of_le hi
  rw [hexText_add, hexText_eq_replicate hfirst, append_assoc]
  refine congrArg (_ ++ ·) ?_
  cases m with
  | zero => simp [hexText]
  | succ m =>
    rw [hexText_succ, if_pos (by omega), hexText_eq_replicate (d := e) fun k hk => ?_, window_shift]
    · have hrest : i + (m + 1) - i - 1 = m := by omega
      rw [hrest, Nat.add_zero]
      rfl
    · have hpos : 4 * i + 4 + 4 * k = 4 * (i + 1 + k) := by omega
      simp only [← Nat.add_assoc]
      rw [window_shift, hpos]
      exact hlast _ (by omega) (by omega)

lemma window_true (n : ℕ) : window (fun _ => true) n 4 = 15 := by
  apply Nat.eq_of_testBit_eq
  intro j
  rw [testBit_window, Bool.and_true]
  exact (Nat.testBit_two_pow_sub_one 4 j).symm

lemma window_ones (m n : ℕ) :
    window (fun k => decide (m ≤ k)) n 4 =
      if n + 4 ≤ m then 0 else if m ≤ n then 15 else 2 ^ (n + 4 - m) - 1 := by
  apply Nat.eq_of_testBit_eq
  intro j
  rw [testBit_window]
  have hones : Nat.testBit 15 j = decide (j < 4) := Nat.testBit_two_pow_sub_one 4 j
  split_ifs with hhigh hlow
  · rw [Nat.zero_testBit, Bool.and_eq_false_iff]
    by_cases hj : j < 4
    · simp only [decide_eq_false_iff_not]
      omega
    · left
      simpa using hj
  · rw [hones]
    by_cases hj : j < 4
    · simp only [hj, decide_true, Bool.true_and, decide_eq_true_eq]
      omega
    · simp [hj]
  · rw [Nat.testBit_two_pow_sub_one]
    by_cases hj : j < 4
    · simp only [hj, decide_true, Bool.true_and, decide_eq_decide]
      omega
    · simp only [hj, decide_false, Bool.false_and]
      symm
      simp only [decide_eq_false_iff_not]
      omega

/-- The mask of the bits from `m` on. -/
theorem makeMask_right {octets m : ℕ} (hm : m < 8 * octets) :
    makeMask octets ((m : ℤ) - (8 * octets : ℕ)) =
      .ok (hexText (2 * octets) fun k => decide (m ≤ k)) := by
  have habs : |(m : ℤ) - (8 * octets : ℕ)| = ((8 * octets - m : ℕ) : ℤ) := by
    rw [abs_of_nonpos (by omega)]
    omega
  unfold makeMask
  simp only [habs]
  rw [if_neg (by omega), if_neg (by omega), if_neg (by omega)]
  have hn : (2 * (octets : ℤ)).toNat = 2 * octets := by omega
  have huniform : (((8 * octets - m : ℕ) : ℤ) / 4).toNat = (8 * octets - m) / 4 := by omega
  have hrest : (((8 * octets - m : ℕ) : ℤ) % 4).toNat = (8 * octets - m) % 4 := by omega
  rw [hn, huniform, hrest]
  refine congrArg Except.ok ?_
  by_cases hall : (8 * octets - m) / 4 = 2 * octets
  · rw [hexText_eq_replicate (d := 15) fun k _ => ?_, hall, if_neg (not_not.2 rfl),
      Nat.sub_self]
    · rfl
    · rw [window_ones, if_neg (by omega), if_pos (by omega)]
  · rw [hexText_parts (i := 2 * octets - (8 * octets - m) / 4 - 1) (d := 0) (e := 15) (by omega)
      (fun k hk => ?_) fun k hk _ => ?_, if_pos hall, if_pos (by omega)]
    · have hlast : 2 * octets - (2 * octets - (8 * octets - m) / 4 - 1) - 1 =
          (8 * octets - m) / 4 := by
        omega
      have hpos : 4 * (2 * octets - (8 * octets - m) / 4 - 1) + 4 - m = (8 * octets - m) % 4 := by
        omega
      have hzero : 4 * (2 * octets - (8 * octets - m) / 4 - 1) + 4 ≤ m ↔
          (8 * octets - m) % 4 = 0 := by
        omega
      rw [hlast, window_ones, hpos, if_neg (by omega : ¬ m ≤ _)]
      simp only [hzero]
      have hrest4 := Nat.mod_lt (8 * octets - m) (show 0 < 4 by decide)
      interval_cases (8 * octets - m) % 4 <;> rfl
    · rw [window_ones, if_pos (by omega)]
    · rw [window_ones, if_neg (by omega), if_pos (by omega)]

/-! ## Octets -/

lemma hexText_octet (o : BitVec 8) :
    hexText 2 (fun k => o.getMsbD k) =
      [radix16.getD (o >>> 4 &&& 0xf).toNat '0', radix16.getD (o &&& 0xf).toNat '0'] := by
  have hmask : ∀ j, Nat.testBit 15 j = decide (j < 4) := Nat.testBit_two_pow_sub_one 4
  have hhigh : (o >>> 4 &&& 0xf).toNat = window (fun k => o.getMsbD k) 0 4 := by
    apply Nat.eq_of_testBit_eq
    intro j
    rw [testBit_window]
    by_cases hj : j < 4
    · have hlt : 4 - 1 - j < 8 := by omega
      have hpos : 8 - 1 - (4 - 1 - j) = 4 + j := by omega
      simp [hj, BitVec.getMsbD, hlt, hpos, hmask, add_comm, BitVec.testBit_toNat]
    · simp [hj, hmask]
  have hlow : (o &&& 0xf).toNat = window (fun k => o.getMsbD k) 4 4 := by
    apply Nat.eq_of_testBit_eq
    intro j
    rw [testBit_window]
    by_cases hj : j < 4
    · have hlt : 4 + 4 - 1 - j < 8 := by omega
      have hpos : 8 - 1 - (4 + 4 - 1 - j) = j := by omega
      simp [hj, BitVec.getMsbD, hlt, hpos, hmask, BitVec.testBit_toNat]
    · simp [hj, hmask]
  rw [hhigh, hlow]
  rfl

/-- `Udb_Radix16_Encode` writes the bits of the octets. -/
theorem udbRadix16Encode_eq (octets : Octets) :
    udbRadix16Encode octets =
      hexText (2 * octets.length) fun k => (octets.getD (k / 8) 0).getMsbD (k % 8) := by
  induction octets with
  | nil => rfl
  | cons o octets ih =>
    have hcons : udbRadix16Encode (o :: octets) =
        [radix16.getD (o >>> 4 &&& 0xf).toNat '0', radix16.getD (o &&& 0xf).toNat '0'] ++
          udbRadix16Encode octets := rfl
    have hlen : 2 * (o :: octets).length = 2 + 2 * octets.length := by
      rw [length_cons]
      omega
    rw [hcons, ih, hlen, hexText_add, ← hexText_octet]
    refine congrArg₂ (· ++ ·) (hexText_congr fun k hk => ?_) (hexText_congr fun k _ => ?_)
    · have hdiv : k / 8 = 0 := by omega
      have hmod : k % 8 = k := by omega
      rw [hdiv, hmod]
      rfl
    · have hdiv : (4 * 2 + k) / 8 = k / 8 + 1 := by omega
      have hmod : (4 * 2 + k) % 8 = k % 8 := by omega
      rw [hdiv, hmod, getD_cons_succ]

end Address
end Unameit
