import Unameit.Inet.Prefix
import Unameit.Lib.Regroup

/-!
# Radix — the text forms of binary data

A uuid is sixteen octets; its text has twenty-two digits of six bits.  Encoding and decoding cut the
octets and the digits across each other: each loop moves one chunk of the bit stream into the one or
two cells it falls into.  The last digit has four bits too many, which have to be zero.
-/

namespace Unameit
namespace Radix

open BitStream
open Function (update update_self update_of_ne)
open List Option

/-- Sixteen octets. -/
abbrev Data := Fin 16 → BitVec 8

def radix64 : CString :=
  "./0123456789ABCDEFGHIJKLMNOPQRSTUVWXYZabcdefghijklmnopqrstuvwxyz".toList

/-! ## Encoding and decoding -/

/-- The bits of octet `i` go into two digits. -/
def encodeOctet (octet : ℕ) (i : ℕ) (out : ℕ → ℕ) : ℕ → ℕ :=
  let iDiv6 := 8 * i / 6
  let iMod6 := 8 * i % 6
  let out := update out iDiv6 (out iDiv6 ||| (octet >>> (2 + iMod6)) &&& 0x3f)
  update out (iDiv6 + 1) (out (iDiv6 + 1) ||| (octet <<< (4 - iMod6)) &&& 0x3f)

/-- Octet `i` as a number. -/
def octet (x : Data) (i : ℕ) : ℕ :=
  if h : i < 16 then (x ⟨i, h⟩).toNat else 0

def udbRadix64Encode (x : Data) : CString :=
  let out := (List.range 16).foldl (fun out i => encodeOctet (octet x i) i out) fun _ => 0
  (List.range 22).map fun k => radix64.getD (out k) '.'

def digit64 (c : Char) : Option ℕ :=
  if '.' ≤ c ∧ c ≤ '9' then some (c.toNat - '.'.toNat)
  else if 'A' ≤ c ∧ c ≤ 'Z' then some (c.toNat + 12 - 'A'.toNat)
  else if 'a' ≤ c ∧ c ≤ 'z' then some (c.toNat + 38 - 'a'.toNat)
  else none

/-- The bits of digit `i` go into one octet or two; the bits behind the last octet must be zero. -/
def decodeDigit (digit i : ℕ) (out : ℕ → ℕ) : Option (ℕ → ℕ) :=
  let iDiv8 := 6 * i / 8
  let iMod8 := 6 * i % 8
  if iMod8 < 3 then some (update out iDiv8 (out iDiv8 ||| digit <<< (2 - iMod8)))
  else
    let carry := digit <<< (10 - iMod8) &&& 0xff
    let out := update out iDiv8 (out iDiv8 ||| digit >>> (iMod8 - 2))
    if iDiv8 + 1 < 16 then some (update out (iDiv8 + 1) (out (iDiv8 + 1) ||| carry))
    else if carry ≠ 0 then none
    else some out

/-- The loop of `Udb_Radix64_Decode` and the check that the text ends behind it. -/
def decodeFrom : CString → ℕ → (ℕ → ℕ) → Option (ℕ → ℕ)
  | [], i, out => if i = 22 then some out else none
  | c :: s, i, out => do
    if i = 22 then none
    let digit ← digit64 c
    let out ← decodeDigit digit i out
    decodeFrom s (i + 1) out

def udbRadix64Decode (s : CString) : Option Data :=
  (decodeFrom s 0 fun _ => 0).map fun out i => BitVec.ofNat 8 (out i)

/-- The characters of the expression that `uuidok` matches the value with. -/
def isUuidChar (c : Char) : Bool :=
  ('0' ≤ c && c ≤ '9') || ('A' ≤ c && c ≤ 'Z') || ('a' ≤ c && c ≤ 'z') || c = '.' || c = '/'

def uuidok (value : CString) : Bool :=
  (!value.isEmpty && value.all isUuidChar) && value.length = 22

def uuidValid (s : CString) : Bool :=
  (udbRadix64Decode s).isSome

/-! ## Digits -/

/-- What the tables of digits say about one character. -/
def Tabulated (c : Char) : Prop :=
  (∀ n ∈ digit64 c, n < 64 ∧ radix64.getD n '.' = c) ∧ (digit64 c).isSome = isUuidChar c ∧
    ((hexDigit c).all fun h => decide (h.toNat < 16 ∧ radix16.getD h.toNat '0' = c.toLower)) ∧
    ((hexDigit c).isSome ↔ c.toLower ∈ radix16)

/-- The tables, looked through entry by entry. -/
theorem digit_tables :
    (∀ n < 64, digit64 (radix64.getD n '.') = some n ∧
      (n % 16 = 0 ↔ radix64.getD n '.' ∈ ['.', 'E', 'U', 'k'])) ∧
    (∀ m < 128, Tabulated (Char.ofNat m)) ∧
    (∀ o : BitVec 8, hexDigit (radix16.getD (o >>> 4 &&& 0xf).toNat '0') = some (o >>> 4) ∧
      hexDigit (radix16.getD (o &&& 0xf).toNat '0') = some (o &&& 0xf) ∧
      (o >>> 4) <<< 4 ||| (o &&& 0xf) = o) ∧
    ∀ i < 16, ∀ j < 16,
      ((BitVec.ofNat 8 i <<< 4 ||| BitVec.ofNat 8 j) >>> 4 &&& 0xf).toNat = i ∧
        ((BitVec.ofNat 8 i <<< 4 ||| BitVec.ofNat 8 j) &&& 0xf).toNat = j := by
  unfold Tabulated
  decide +kernel

variable {c : Char} {n : ℕ} {s : CString} {x : Data}

lemma digit64_getD (hn : n < 64) : digit64 (radix64.getD n '.') = some n :=
  (digit_tables.1 n hn).1

lemma tabulated (hc : c.toNat < 128) : Tabulated c :=
  Char.ofNat_toNat c ▸ digit_tables.2.1 c.toNat hc

lemma not_le_of_ascii {d : Char} (hc : ¬ c.toNat < 128) (hd : d.toNat < 128) : ¬ c ≤ d :=
  fun hle => hc (Nat.lt_of_le_of_lt hle hd)

lemma ne_of_ascii {d : Char} (hc : ¬ c.toNat < 128) (hd : d.toNat < 128) : c ≠ d :=
  fun heq => hc (heq ▸ hd)

lemma eq_of_digit64 (h : digit64 c = some n) : n < 64 ∧ radix64.getD n '.' = c := by
  by_cases hc : c.toNat < 128
  · exact (tabulated hc).1 n h
  · simp [digit64, not_le_of_ascii hc] at h

/-! ## Streams -/

/-- The bits of the octets; behind them come zeros. -/
def octetBits (x : Data) : BitStream := fun n =>
  (octet x (n / 8)).testBit (7 - n % 8)

def digitAt (s : CString) (k : ℕ) : ℕ :=
  ((s[k]?).bind digit64).getD 0

def digitBits (s : CString) : BitStream := fun n =>
  (digitAt s (n / 6)).testBit (5 - n % 6)

lemma octet_lt (x : Data) (i : ℕ) : octet x i < 2 ^ 8 := by
  unfold octet
  split_ifs
  · exact BitVec.isLt _
  · decide

lemma window_octetBits (x : Data) (i : ℕ) : window (octetBits x) (8 * i) 8 = octet x i :=
  window_cells (by decide) (octet_lt x i)

lemma digitAt_lt (s : CString) (k : ℕ) : digitAt s k < 2 ^ 6 := by
  unfold digitAt
  cases h : (s[k]?).bind digit64 with
  | none => decide
  | some n =>
    obtain ⟨c, -, hc⟩ := bind_eq_some_iff.1 h
    exact (eq_of_digit64 hc).1

lemma window_digitBits (s : CString) (k : ℕ) : window (digitBits s) (6 * k) 6 = digitAt s k :=
  window_cells (by decide) (digitAt_lt s k)

/-! ## The loops -/

variable {f : BitStream} {i : ℕ} {out : ℕ → ℕ}

lemma encodeOctet_packed (h : Packed 6 22 out (8 * i) f) :
    Packed 6 22 (encodeOctet (window f (8 * i) 8) i out) (8 * i + 8) f := by
  refine h.add fun k _ => ?_
  have hmask : ∀ n : ℕ, n &&& 0x3f = n % 2 ^ 6 := fun n => Nat.and_two_pow_sub_one_eq_mod n 6
  unfold encodeOctet
  simp only [hmask]
  by_cases hlow : k = 8 * i / 6 + 1
  · subst hlow
    have hshift : 6 * (8 * i / 6 + 1) + 6 - (8 * i + 8) = 4 - 8 * i % 6 := by omega
    rw [update_self, update_of_ne (by omega),
      window_chunk_left (by omega), hshift]
  rw [update_of_ne hlow]
  by_cases hhigh : k = 8 * i / 6
  · subst hhigh
    have hshift : 8 * i + 8 - (6 * (8 * i / 6) + 6) = 2 + 8 * i % 6 := by omega
    rw [update_self, window_chunk_right (by omega), hshift]
  · rw [update_of_ne hhigh, window_chunk_disjoint (by omega), Nat.or_zero]

/-- What digit `i` adds to the octet it begins in. -/
theorem window_chunk_first (f : BitStream) (i : ℕ) :
    window (chunk f (6 * i) 6) (8 * (6 * i / 8)) 8 =
      if 6 * i % 8 < 3 then window f (6 * i) 6 <<< (2 - 6 * i % 8)
      else window f (6 * i) 6 >>> (6 * i % 8 - 2) := by
  have hlt := window_lt f (6 * i) 6
  split_ifs with hmod
  · have hshift : 8 * (6 * i / 8) + 8 - (6 * i + 6) = 2 - 6 * i % 8 := by omega
    have hfit : window f (6 * i) 6 <<< (2 - 6 * i % 8) < 2 ^ 6 * 2 ^ 2 := by
      rw [Nat.shiftLeft_eq]
      exact Nat.mul_lt_mul_of_lt_of_le hlt (Nat.pow_le_pow_right (by decide) (by omega)) (by decide)
    rw [window_chunk_left (by omega), hshift]
    exact Nat.mod_eq_of_lt hfit
  · have hshift : 6 * i + 6 - (8 * (6 * i / 8) + 8) = 6 * i % 8 - 2 := by omega
    rw [window_chunk_right (by omega), hshift]
    exact Nat.mod_eq_of_lt ((Nat.shiftRight_le _ _).trans_lt (hlt.trans (by decide)))

lemma decodeDigit_packed (h : Packed 8 16 out (6 * i) f) (hi : i < 22) :
    (i = 21 ∧ window f (6 * i) 6 % 16 ≠ 0 ∧ decodeDigit (window f (6 * i) 6) i out = none) ∨
      (i = 21 → window f (6 * i) 6 % 16 = 0) ∧
        ∃ out', decodeDigit (window f (6 * i) 6) i out = some out' ∧
          Packed 8 16 out' (6 * i + 6) f := by
  have hfirst := window_chunk_first f i
  have hpow : 2 ^ (10 - 6 * 21 % 8) = 16 := rfl
  have hmask : ∀ n : ℕ, n &&& 0xff = n % 2 ^ 8 := fun n => Nat.and_two_pow_sub_one_eq_mod n 8
  unfold decodeDigit
  simp only [hmask]
  split_ifs at hfirst ⊢ with hmod hnext hcarry
  · -- one octet
    refine Or.inr ⟨by omega, _, rfl, h.add fun k _ => ?_⟩
    by_cases hk : k = 6 * i / 8
    · rw [hk, update_self, hfirst]
    · rw [update_of_ne hk, window_chunk_disjoint (by omega), Nat.or_zero]
  · -- two octets
    refine Or.inr ⟨by omega, _, rfl, h.add fun k _ => ?_⟩
    by_cases hlow : k = 6 * i / 8 + 1
    · subst hlow
      have hshift : 8 * (6 * i / 8 + 1) + 8 - (6 * i + 6) = 10 - 6 * i % 8 := by omega
      rw [update_self, update_of_ne (by omega),
        window_chunk_left (by omega), hshift]
    rw [update_of_ne hlow]
    by_cases hk : k = 6 * i / 8
    · rw [hk, update_self, hfirst]
    · rw [update_of_ne hk, window_chunk_disjoint (by omega), Nat.or_zero]
  · -- the last digit, with bits behind the last octet
    obtain rfl : i = 21 := by omega
    rw [Nat.shiftLeft_eq, hpow] at hcarry
    exact Or.inl ⟨rfl, by omega, rfl⟩
  · obtain rfl : i = 21 := by omega
    rw [Nat.shiftLeft_eq, hpow] at hcarry
    refine Or.inr ⟨by omega, _, rfl, h.add fun k hk16 => ?_⟩
    by_cases hk : k = 6 * 21 / 8
    · rw [hk, update_self, hfirst]
    · rw [update_of_ne hk, window_chunk_disjoint (by omega), Nat.or_zero]

/-- The loop from digit `i` on: it ends in the octets of the whole text, unless the text is not one of
twenty-two digits with zeros at the end. -/
theorem decodeFrom_packed (s : CString) : ∀ (rest : CString) (i : ℕ) (out : ℕ → ℕ),
    rest = s.drop i → i ≤ s.length → i ≤ 22 → Packed 8 16 out (6 * i) (digitBits s) →
    (∀ out', decodeFrom rest i out = some out' → Packed 8 16 out' 132 (digitBits s)) ∧
      ((decodeFrom rest i out).isSome ↔ s.length = 22 ∧ (∀ c ∈ rest, (digit64 c).isSome) ∧
        (i < 22 → digitAt s 21 % 16 = 0)) := by
  intro rest
  induction rest with
  | nil =>
    intro i out hrest hlen hi h
    have hlength : s.length = i := hlen.antisymm' (drop_eq_nil_iff.1 hrest.symm)
    rw [decodeFrom]
    split_ifs with hend
    · subst hend
      exact ⟨fun out' hout => some.inj hout ▸ h, by simp [hlength]⟩
    · exact ⟨fun out' hout => (by simp at hout), by simp [hlength, hend]⟩
  | cons c rest ih =>
    intro i out hrest hlen hi h
    have hget : s[i]? = some c := by
      rw [← List.head?_drop, ← hrest]
      rfl
    have hlt : i < s.length := (List.getElem?_eq_some_iff.1 hget).1
    by_cases hend : i = 22
    · have hlong : s.length ≠ 22 := by omega
      simp [decodeFrom, hend, hlong]
    cases hdigit : digit64 c with
    | none => simp [decodeFrom, hend, hdigit]
    | some digit =>
      have hwindow : window (digitBits s) (6 * i) 6 = digit := by
        rw [window_digitBits]
        simp [digitAt, hget, hdigit]
      have hi' : i < 22 := by omega
      rcases decodeDigit_packed h hi' with ⟨rfl, hbits, hnone⟩ | ⟨hbits, out', hsome, hpacked⟩
      · rw [hwindow] at hnone
        rw [window_digitBits] at hbits
        simp [decodeFrom, hdigit, hnone, hbits]
      · rw [hwindow] at hsome
        have hnext := ih (i + 1) out' (by rw [← tail_drop, ← hrest]; rfl) hlt hi' hpacked
        have heq : decodeFrom (c :: rest) i out = decodeFrom rest (i + 1) out' := by
          simp [decodeFrom, hend, hdigit, hsome]
        rw [heq]
        refine ⟨hnext.1, hnext.2.trans ?_⟩
        have hlast : i = 21 → digitAt s 21 % 16 = 0 := fun heq => by
          subst heq
          rw [← window_digitBits]
          exact hbits rfl
        rw [forall_mem_cons, hdigit]
        refine and_congr_right fun _ => and_congr (by simp) ⟨fun hrest hi => ?_, fun hall _ => hall hi'⟩
        by_cases h21 : i = 21
        · exact hlast h21
        · exact hrest (by omega)

/-- The texts that `Udb_Radix64_Decode` accepts. -/
def Accepted (s : CString) : Prop :=
  s.length = 22 ∧ (∀ c ∈ s, (digit64 c).isSome) ∧ digitAt s 21 % 16 = 0

lemma udbRadix64Decode_isSome_iff (s : CString) : (udbRadix64Decode s).isSome ↔ Accepted s := by
  have h := (decodeFrom_packed s s 0 (fun _ => 0) rfl (Nat.zero_le _) (Nat.zero_le _)
    (Packed.zero 8 16 _)).2
  simpa [udbRadix64Decode, Accepted] using h

lemma octet_of_udbRadix64Decode (h : udbRadix64Decode s = some x) (hi : i < 16) :
    octet x i = window (digitBits s) (8 * i) 8 := by
  obtain ⟨out, hout, rfl⟩ := map_eq_some_iff.1 h
  have hpacked := (decodeFrom_packed s s 0 (fun _ => 0) rfl (Nat.zero_le _) (Nat.zero_le _)
    (Packed.zero 8 16 _)).1 out hout i hi
  rw [window_chunk_inside (Nat.zero_le _) (by omega)] at hpacked
  rw [octet, dif_pos hi, BitVec.toNat_ofNat, hpacked]
  exact Nat.mod_eq_of_lt (window_lt _ _ _)

lemma octetBits_eq_false (x : Data) (hn : 128 ≤ n) : octetBits x n = false := by
  rw [octetBits, octet, dif_neg (by omega), Nat.zero_testBit]

lemma udbRadix64Encode_eq (x : Data) :
    udbRadix64Encode x =
      (List.range 22).map fun k => radix64.getD (window (octetBits x) (6 * k) 6) '.' := by
  have hloop : ∀ n, Packed 6 22 ((range n).foldl (fun out i => encodeOctet (octet x i) i out)
      fun _ => 0) (8 * n) (octetBits x) := by
    intro n
    induction n with
    | zero => exact Packed.zero 6 22 _
    | succ n ih =>
      rw [range_succ, foldl_append, foldl_cons, foldl_nil, ← window_octetBits]
      exact encodeOctet_packed ih
  have hchunk : chunk (octetBits x) 0 128 = octetBits x := by
    funext n
    by_cases hn : n < 128
    · simp [chunk, hn]
    · simp [chunk, hn, octetBits_eq_false x (Nat.not_lt.1 hn)]
  unfold udbRadix64Encode
  refine map_congr_left fun k hk => ?_
  rw [hloop 16 k (mem_range.1 hk), hchunk]

/-! ## Round trips -/

lemma digitAt_udbRadix64Encode (x : Data) {k : ℕ} (hk : k < 22) :
    digitAt (udbRadix64Encode x) k = window (octetBits x) (6 * k) 6 := by
  have hdigit := digit64_getD (window_lt (octetBits x) (6 * k) 6)
  rw [getD_eq_getElem?_getD] at hdigit
  simp [digitAt, udbRadix64Encode_eq, hk, hdigit]

/-- The text and the octets have the same bits. -/
theorem digitBits_udbRadix64Encode (x : Data) (hn : n < 132) :
    digitBits (udbRadix64Encode x) n = octetBits x n := by
  rw [digitBits, digitAt_udbRadix64Encode x (by omega)]
  exact testBit_cell (by decide) _ _

lemma octetBits_of_udbRadix64Decode (h : udbRadix64Decode s = some x) (hn : n < 132) :
    octetBits x n = digitBits s n := by
  by_cases hlt : n < 128
  · rw [octetBits, octet_of_udbRadix64Decode h (by omega)]
    exact testBit_cell (by decide) _ _
  · -- the four bits behind the octets
    have hlast := ((udbRadix64Decode_isSome_iff s).1 (by simp [h])).2.2
    rw [← window_digitBits] at hlast
    rw [octetBits_eq_false x (Nat.not_lt.1 hlt)]
    exact ((window_mod_eq_zero_iff (digitBits s) (k := 4) (by decide)).1 hlast n
      (by omega) (by omega)).symm

lemma accepted_udbRadix64Encode (x : Data) : Accepted (udbRadix64Encode x) := by
  refine ⟨by simp [udbRadix64Encode_eq], fun c hc => ?_, ?_⟩
  · rw [udbRadix64Encode_eq] at hc
    obtain ⟨k, -, rfl⟩ := mem_map.1 hc
    rw [digit64_getD (window_lt _ _ _)]
    rfl
  · rw [digitAt_udbRadix64Encode x (by decide)]
    have hmod := window_mod (octetBits x) (n := 126) (w := 6) (k := 4) (by decide)
    refine hmod.trans ((window_eq_zero_iff _ _ _).2 fun m hm _ => ?_)
    exact octetBits_eq_false x (by omega)

lemma udbRadix64Decode_encode (x : Data) : udbRadix64Decode (udbRadix64Encode x) = some x := by
  obtain ⟨y, hy⟩ := isSome_iff_exists.1
    ((udbRadix64Decode_isSome_iff _).2 (accepted_udbRadix64Encode x))
  rw [hy, some_inj]
  funext i
  have hoctet : octet y i = octet x i := by
    rw [octet_of_udbRadix64Decode hy i.isLt, ← window_octetBits x i]
    exact (window_eq_iff _ _ _ _).2 fun n _ hn =>
      digitBits_udbRadix64Encode x (by omega)
  rw [octet, octet, dif_pos i.isLt, dif_pos i.isLt] at hoctet
  exact BitVec.eq_of_toNat_eq hoctet

lemma udbRadix64Encode_decode (h : udbRadix64Decode s = some x) : udbRadix64Encode x = s := by
  obtain ⟨hlen, hdigits, -⟩ := (udbRadix64Decode_isSome_iff s).1 (by simp [h])
  rw [udbRadix64Encode_eq]
  refine ext_getElem (by simp [hlen]) fun k hk hk' => ?_
  have hwindow : window (octetBits x) (6 * k) 6 = digitAt s k := by
    rw [← window_digitBits]
    exact (window_eq_iff _ _ _ _).2 fun n _ hn =>
      octetBits_of_udbRadix64Decode h (by omega)
  obtain ⟨d, hd⟩ := isSome_iff_exists.1 (hdigits s[k] (getElem_mem hk'))
  have hdigit : digitAt s k = d := by simp [digitAt, hk', hd]
  rw [getElem_map, getElem_range, hwindow, hdigit, (eq_of_digit64 hd).2]

/-! ## Hexadecimal digits -/

lemma hexDigit_eq_iff (c : Char) :
    (∀ h ∈ hexDigit c, h.toNat < 16 ∧ radix16.getD h.toNat '0' = c.toLower) ∧
      ((hexDigit c).isSome ↔ c.toLower ∈ radix16) := by
  by_cases hc : c.toNat < 128
  · obtain ⟨-, -, hall, hsome⟩ := tabulated hc
    exact ⟨fun h hh => of_decide_eq_true ((all_eq_true _ _).1 hall h hh), hsome⟩
  · have hnone : hexDigit c = none := by
      simp [hexDigit, not_le_of_ascii hc]
    have hlower : c.toLower = c := dif_neg fun h => not_le_of_ascii (d := 'Z') hc (by decide) h.2
    have hmem : c ∉ radix16 := by
      simp [radix16, ne_of_ascii hc]
    simp [hnone, hlower, hmem]

lemma udbRadix16Decode_encode (octets : Octets) :
    udbRadix16Decode (udbRadix16Encode octets) octets.length = some octets := by
  induction octets with
  | nil => rfl
  | cons o octets ih =>
    obtain ⟨hhigh, hlow, heq⟩ := digit_tables.2.2.1 o
    show udbRadix16Decode (_ :: _ :: udbRadix16Encode octets) (octets.length + 1) = _
    simp only [udbRadix16Decode, hhigh, hlow, ih, bind_eq_bind, bind_some, heq]
    rfl

lemma udbRadix16Encode_cons {h l : BitVec 8} (hh : h.toNat < 16) (hl : l.toNat < 16)
    (octets : Octets) :
    udbRadix16Encode ((h <<< 4 ||| l) :: octets) =
      radix16.getD h.toNat '0' :: radix16.getD l.toNat '0' :: udbRadix16Encode octets := by
  have hnibbles := digit_tables.2.2.2 h.toNat hh l.toNat hl
  rw [BitVec.ofNat_toNat, BitVec.ofNat_toNat, BitVec.setWidth_eq, BitVec.setWidth_eq] at hnibbles
  rw [udbRadix16Encode, flatMap_cons, hnibbles.1, hnibbles.2]
  rfl

lemma udbRadix16Decode_spec (s : CString) (n : ℕ) :
    ((udbRadix16Decode s n).isSome ↔ s.length = 2 * n ∧ ∀ c ∈ s, c.toLower ∈ radix16) ∧
      ∀ octets ∈ udbRadix16Decode s n, udbRadix16Encode octets = s.map Char.toLower := by
  induction s, n using udbRadix16Decode.induct with
  | case1 => exact ⟨by simp [udbRadix16Decode], fun octets h => some.inj h ▸ rfl⟩
  | case2 high low rest n ih =>
    have hhigh := hexDigit_eq_iff high
    have hlow := hexDigit_eq_iff low
    simp only [forall_mem_cons, ← hhigh.2, ← hlow.2, udbRadix16Decode]
    cases hh : hexDigit high with
    | none => simp
    | some h =>
      cases hl : hexDigit low with
      | none => simp
      | some l =>
        constructor
        · have hlen : (high :: low :: rest).length = 2 * (n + 1) ↔ rest.length = 2 * n := by
            simp only [length_cons]
            omega
          rw [hlen]
          simpa [isSome_bind] using ih.1
        · intro octets hmem
          obtain ⟨out, hout, rfl⟩ : ∃ out ∈ udbRadix16Decode rest n, (h <<< 4 ||| l) :: out = octets := by
            simpa [bind_eq_some_iff] using hmem
          rw [udbRadix16Encode_cons (hhigh.1 h hh).1 (hlow.1 l hl).1, (hhigh.1 h hh).2,
            (hlow.1 l hl).2, ih.2 out hout]
          rfl
  | case3 s n hnil hcons =>
    have hnone : udbRadix16Decode s n = none := by
      simp [udbRadix16Decode]
    have hlen : s.length ≠ 2 * n := by
      rcases s with _ | ⟨c, _ | ⟨d, rest⟩⟩
      · rw [length_nil]
        intro hn
        exact hnil rfl (by omega)
      · rw [length_singleton]
        omega
      · cases n with
        | zero => simp
        | succ n => exact (hcons c d rest n rfl rfl).elim
    simp [hnone, hlen]

/-- `Udb_Radix64_Encode` and `Udb_Radix64_Decode` are inverse to each other on the octets and on the
accepted texts.  `Udb_Radix16_Decode` reads back what `Udb_Radix16_Encode` writes, accepts exactly two
digits for each octet and otherwise only forgets the case of the letters. -/
theorem radix_bijection :
    (∀ x, udbRadix64Decode (udbRadix64Encode x) = some x) ∧
      (∀ s x, udbRadix64Decode s = some x → udbRadix64Encode x = s) ∧
      (∀ octets : Octets,
        udbRadix16Decode (udbRadix16Encode octets) octets.length = some octets) ∧
      ∀ s n, ((udbRadix16Decode s n).isSome ↔
          s.length = 2 * n ∧ ∀ c ∈ s, c.toLower ∈ radix16) ∧
        ∀ octets ∈ udbRadix16Decode s n, udbRadix16Encode octets = s.map Char.toLower :=
  ⟨udbRadix64Decode_encode, fun _ _ => udbRadix64Encode_decode, udbRadix16Decode_encode,
    udbRadix16Decode_spec⟩

/-! ## Uuids -/

lemma digit64_isSome (c : Char) : (digit64 c).isSome = isUuidChar c := by
  by_cases hc : c.toNat < 128
  · exact (tabulated hc).2.1
  · simp [digit64, isUuidChar, not_le_of_ascii hc, ne_of_ascii hc]

/-- The two tests agree but on texts of twenty-two digits whose last digit has bits that no octet
holds. -/
theorem uuidok_eq_uuidValid_iff (s : CString) :
    (uuidok s = true ↔ uuidValid s = true) ↔
      (s.length = 22 → (∀ c ∈ s, isUuidChar c) → s[21]? ∈ ['.', 'E', 'U', 'k'].map some) := by
  have hok : uuidok s = true ↔ s.length = 22 ∧ ∀ c ∈ s, isUuidChar c := by
    have hempty : s.length = 22 → s ≠ [] := by
      rintro hlen rfl
      simp at hlen
    simp only [uuidok, Bool.and_eq_true, Bool.not_eq_true', List.isEmpty_eq_false_iff,
      List.all_eq_true, decide_eq_true_eq]
    tauto
  rw [hok, uuidValid, udbRadix64Decode_isSome_iff, Accepted]
  simp only [digit64_isSome]
  have hlast : s.length = 22 → (∀ c ∈ s, isUuidChar c) →
      (digitAt s 21 % 16 = 0 ↔ s[21]? ∈ ['.', 'E', 'U', 'k'].map some) := by
    intro hlen hchars
    have hlt : 21 < s.length := by omega
    obtain ⟨d, hd⟩ := isSome_iff_exists.1
      ((digit64_isSome s[21]).trans (hchars _ (getElem_mem hlt)))
    have hdigit : digitAt s 21 = d := by simp [digitAt, hlt, hd]
    obtain ⟨hd64, hchar⟩ := eq_of_digit64 hd
    rw [hdigit, (digit_tables.1 d hd64).2, hchar, getElem?_eq_getElem hlt]
    simp
  tauto

theorem not_uuidok_eq_uuidValid :
    ¬ (uuidok "/////////////////////z".toList = true ↔
      uuidValid "/////////////////////z".toList = true) := by
  decide +kernel

end Radix
end Unameit
