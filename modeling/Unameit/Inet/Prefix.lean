import Unameit.Inet.WellFormed

/-!
# Inet.Prefix — from attributes to prefixes

The functions that turn the user visible attributes of an item into the prefix it is filed at,
with the errors they report: `Udb_Radix16_Decode`, `Inet_Node_Prefix`, `Inet_Net_Prefix`,
`Inet_Range_Prefix` and `Inet_Info_Prefix`.  Whatever they produce is `Entry.Accepted`.
-/

namespace Unameit

/-! ## Hexadecimal addresses -/

def hexDigit (c : Char) : Option (BitVec 8) :=
  if '0' ≤ c ∧ c ≤ '9' then some (BitVec.ofNat 8 (c.toNat - '0'.toNat))
  else if 'A' ≤ c ∧ c ≤ 'F' then some (BitVec.ofNat 8 (c.toNat - 'A'.toNat + 10))
  else if 'a' ≤ c ∧ c ≤ 'f' then some (BitVec.ofNat 8 (c.toNat - 'a'.toNat + 10))
  else none

def udbRadix16Decode : CString → ℕ → Option Octets
  | [], 0 => some []
  | high :: low :: rest, octets + 1 => do
    let h ← hexDigit high
    let l ← hexDigit low
    let out ← udbRadix16Decode rest octets
    return (h <<< 4 ||| l) :: out
  | _, _ => none

def radix16 : CString :=
  ['0', '1', '2', '3', '4', '5', '6', '7', '8', '9', 'a', 'b', 'c', 'd', 'e', 'f']

def udbRadix16Encode (octets : Octets) : CString :=
  octets.flatMap fun (o : BitVec 8) =>
    [radix16.getD (o >>> 4 &&& 0xf).toNat '0', radix16.getD (o &&& 0xf).toNat '0']

variable {n k : ℕ} {aname address start last : CString}

lemma length_of_udbRadix16Decode {s : CString} {out : Octets}
    (h : udbRadix16Decode s n = some out) : out.length = n := by
  induction s, n using udbRadix16Decode.induct generalizing out with
  | case1 =>
    cases h
    rfl
  | case2 high low rest octets ih =>
    simp only [udbRadix16Decode, Option.bind_eq_bind, Option.bind_eq_some_iff] at h
    rcases h with ⟨hi, _, lo, _, tail, htail, hout⟩
    cases hout
    simp [ih htail]
  | case3 s n h₁ h₂ =>
    simp [udbRadix16Decode] at h

namespace Inet

/-- What a function of the source can end with instead of a result: `stop` when one of its
assertions or checks fails, and otherwise the error code it reports, for the object given first,
with the attribute names and values that the error carries. -/
inductive Failure
  | stop
  | einetnoroot (object : DbObject) (fname : CString)
  | einetnotaddr (object : DbObject) (aname address : CString)
  | einetbits (object : DbObject) (bitsAttribute bits startAttribute start : CString)
  | einetbounds (object : DbObject) (startAttribute start endAttribute last : CString)
  | etoosmall (object : DbObject) (aname value limit : CString)
  | etoobig (object : DbObject) (aname value limit : CString)
  | einetnotnode (object : DbObject) (fname : CString)
  | einetfull (object : DbObject) (aname : CString) (net : DbObject)
  | einetdupnode (object other : DbObject) (aname : CString)
  | einetdupnet (object other : DbObject) (startAttribute bitsAttribute : CString)
  deriving DecidableEq, Repr

def decimal (n : ℕ) : CString :=
  (toString n).toList

/-! ## Prefixes -/

def inetNodePrefix (fam : Family) (t : Tree) (o : DbObject) (aname address : CString) :
    Except Failure InetPrefix :=
  if t.universeNet = none then .error (.einetnoroot o fam.fname)
  else
    match udbRadix16Decode address fam.octets with
    | none => .error (.einetnotaddr o aname address)
    | some octets => .ok ⟨fam.bits, octets⟩

/-- The loop of `Inet_Net_Prefix`: the position at which a bit after the prefix was found on. -/
def netBitsLoop (fam : Family) (octets : Octets) : ℕ → ℕ → Option ℕ
  | 0, _ => none
  | fuel + 1, bits =>
    if bits < fam.bits then
      if octets.getD (bits >>> 3) 0 <<< (bits &&& 7) ≠ 0 then some bits
      else netBitsLoop fam octets fuel (bits + (8 - (bits &&& 7)))
    else
      none

/-- `Inet_Net_Prefix`: the first `bits` bits of an address whose other bits are off. -/
def inetNetPrefix (fam : Family) (t : Tree) (o : DbObject) (start : CString) (bits : ℕ) :
    Except Failure InetPrefix :=
  if ¬ bits < fam.bits then .error .stop
  else if t.universeNet = none ∧ bits ≠ 0 then .error (.einetnoroot o fam.fname)
  else
    match udbRadix16Decode start fam.octets with
    | none => .error (.einetnotaddr o fam.netStartAttribute start)
    | some octets =>
      match netBitsLoop fam octets (fam.octets + 1) bits with
      | some found =>
        .error (.einetbits o fam.netBitsAttribute (decimal found) fam.netStartAttribute start)
      | none => .ok ⟨bits, octets⟩

def leftZero (n : BitVec 8) : ℕ :=
  [4, 3, 2, 2, 1, 1, 1, 1, 0, 0, 0, 0, 0, 0, 0, 0].getD n.toNat 0

/-- The loop of `Inet_Range_Prefix`: the length of the common prefix of two addresses. -/
def commonBits : Octets → Octets → ℕ
  | a :: as, b :: bs =>
    let xor := a ^^^ b
    if xor = 0 then 8 + commonBits as bs
    else leftZero (xor >>> 4) + if xor >>> 4 ≠ 0 then 0 else leftZero xor
  | _, _ => 0

/-- `Inet_Range_Prefix`: the common prefix of the two ends, with all the bits of the start. -/
def inetRangePrefix (fam : Family) (t : Tree) (o : DbObject) (start last : CString) :
    Except Failure InetPrefix :=
  if strcmp start last > 0 then
    .error (.einetbounds o fam.rangeStartAttribute start fam.rangeEndAttribute last)
  else do
    let p ← inetNodePrefix fam t o fam.rangeStartAttribute start
    let q ← inetNodePrefix fam t o fam.rangeEndAttribute last
    let bits := commonBits p.octets q.octets
    -- Ranges never go into node slots.
    return ⟨if bits < fam.bits then bits else bits - 1, p.octets⟩

def inetInfoPrefix (fam : Family) (t : Tree) (o : DbObject) (info : InetInfo) :
    Except Failure InetPrefix :=
  match info with
  | .node address => inetNodePrefix fam t o fam.nodeAddressAttribute address
  | .net start bits _ _ => inetNetPrefix fam t o start bits
  | .range start last _ _ => inetRangePrefix fam t o start last

/-! ## What is accepted -/

section Accepted

variable {fam : Family} {t : Tree} {o : DbObject} {p : InetPrefix}

lemma stream_of_length_le (h : 8 * p.octets.length ≤ k) : p.stream k = false := by
  have hlen : p.octets.length ≤ k / 8 := by omega
  simp [InetPrefix.stream, List.getD_eq_getElem?_getD, List.getElem?_eq_none hlen]

lemma getMsbD_of_shiftLeft_eq_zero {x : BitVec 8} (h : x <<< n = 0) (hk : n ≤ k) :
    x.getMsbD k = false := by
  have hbit := congrArg (fun y : BitVec 8 => y.getMsbD (k - n)) h
  have hsum : k - n + n = k := Nat.sub_add_cancel hk
  simpa [BitVec.getMsbD_shiftLeft, hsum, add_comm] using hbit

/-- When the loop finds nothing, all bits after the prefix are off. -/
theorem stream_of_netBitsLoop {octets : Octets} (fuel bits : ℕ)
    (hfuel : fam.octets ≤ bits / 8 + fuel) (h : netBitsLoop fam octets fuel bits = none)
    (hk : bits ≤ k) (hk' : k < fam.bits) : (octets.getD (k / 8) 0).getMsbD (k % 8) = false := by
  have hbits := fam_bits fam
  induction fuel generalizing bits with
  | zero => omega
  | succ fuel ih =>
    have hmask : bits &&& (2 ^ 3 - 1) = bits % 2 ^ 3 := Nat.and_two_pow_sub_one_eq_mod bits 3
    have hshift : bits >>> 3 = bits / 8 := Nat.shiftRight_eq_div_pow bits 3
    rw [netBitsLoop, if_pos (by omega)] at h
    split at h
    · cases h
    · rename_i hzero
      rcases lt_or_ge k (8 * (bits / 8 + 1)) with hsame | hlater
      · -- The bit lies in the octet that was just checked.
        have hdiv : k / 8 = bits / 8 := by omega
        rw [hdiv]
        refine getMsbD_of_shiftLeft_eq_zero (n := bits &&& 7) ?_ ?_
        · rw [← hshift]
          exact not_not.1 hzero
        · have : bits &&& 7 = bits % 8 := hmask
          omega
      · have hnext : bits &&& 7 = bits % 8 := hmask
        exact ih _ (by omega) h (by omega)

lemma inetNodePrefix_eq_ok (h : inetNodePrefix fam t o aname address = .ok p) :
    p.bits = fam.bits ∧ p.octets.length = fam.octets := by
  unfold inetNodePrefix at h
  split at h
  · cases h
  · split at h
    · cases h
    · rename_i octets hdecode
      cases h
      exact ⟨rfl, length_of_udbRadix16Decode hdecode⟩

lemma inetNodePrefix_accepted (h : inetNodePrefix fam t o aname address = .ok p) :
    (Entry.mk .node p).Accepted fam := by
  rcases inetNodePrefix_eq_ok h with ⟨hbits, hlen⟩
  exact ⟨hlen, hbits⟩

lemma inetNetPrefix_accepted {bits : ℕ} (h : inetNetPrefix fam t o start bits = .ok p) :
    (Entry.mk .net p).Accepted fam := by
  unfold inetNetPrefix at h
  split at h
  · cases h
  · rename_i hlt
    split at h
    · cases h
    · split at h
      · cases h
      · rename_i octets hdecode
        split at h
        · cases h
        · rename_i hloop
          cases h
          have hlen := length_of_udbRadix16Decode hdecode
          refine ⟨hlen, not_not.1 hlt, fun k hk => ?_⟩
          rcases lt_or_ge k fam.bits with hk' | hge
          · exact stream_of_netBitsLoop _ _ (by omega) hloop hk hk'
          · refine stream_of_length_le ?_
            rw [hlen, ← fam_bits]
            exact hge

lemma commonBits_le (a b : Octets) : commonBits a b ≤ 8 * a.length := by
  have hzero : ∀ n : BitVec 8, leftZero n ≤ 4 := by decide
  induction a generalizing b with
  | nil => simp [commonBits]
  | cons x a ih =>
    cases b with
    | nil => simp [commonBits]
    | cons y b =>
      have hhigh := hzero ((x ^^^ y) >>> 4)
      have hlow := hzero (x ^^^ y)
      have hrest := ih b
      simp only [commonBits, List.length_cons]
      split
      · omega
      · split <;> omega

lemma inetRangePrefix_accepted (h : inetRangePrefix fam t o start last = .ok p) :
    (Entry.mk .range p).Accepted fam := by
  unfold inetRangePrefix at h
  split at h
  · cases h
  · cases hstart : inetNodePrefix fam t o fam.rangeStartAttribute start with
    | error e => simp [hstart, bind, Except.bind] at h
    | ok q =>
      cases hlast : inetNodePrefix fam t o fam.rangeEndAttribute last with
      | error e => simp [hstart, hlast, bind, Except.bind] at h
      | ok q' =>
        simp only [hstart, hlast, bind, Except.bind, pure, Except.pure] at h
        cases h
        have hlen := (inetNodePrefix_eq_ok hstart).2
        have hle := commonBits_le q.octets q'.octets
        have hbits := fam_bits fam
        have hpos := fam_bits_pos fam
        refine ⟨hlen, ?_⟩
        show (if commonBits q.octets q'.octets < fam.bits then _ else _) < fam.bits
        split
        · assumption
        · omega

/-- Every prefix that an item is filed at is accepted for its type. -/
theorem inetInfoPrefix_accepted {info : InetInfo} (h : inetInfoPrefix fam t o info = .ok p) :
    (Entry.mk info.objType p).Accepted fam := by
  cases info with
  | node address => exact inetNodePrefix_accepted h
  | net start bits mask type => exact inetNetPrefix_accepted h
  | range start last type devices => exact inetRangePrefix_accepted h

end Accepted

end Inet
end Unameit
