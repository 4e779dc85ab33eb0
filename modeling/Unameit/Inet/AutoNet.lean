import Unameit.Inet.RangeLists

/-!
# Inet.AutoNet — choosing the prefix of a new subnet

`Inet_Auto_Net` walks over the blocks of a net that carry neither nets nor ranges, and writes the
indices of the best candidate into the prefix of the net while it returns.  It takes the length of a
sub-block from its position, which is right as long as every block without a net and without ranges
ends at a boundary (`Natural`).  Only the deletion of a net can leave another block behind.
-/

namespace Unameit
namespace Inet

open List

variable {incr index bits i want : ℕ} {p q : InetPrefix} {o b net : DbObject} {fam : Family}
  {σ σ' τ : Config} {nets : List (DbObject × CString × ℕ)}

open HoleSeq (nth)
open BitStream

/-! ## The search -/

/-- `InetBest`: what is known about the best candidate so far; `zeroBest` is the first prefix of
the whole net. -/
inductive InetBest
  | noneBest
  | zeroBest
  | otherBest
  deriving DecidableEq, Repr

/-- `Inet_Sub_Prefix`: write the first `bitIncr` bits of an index of a block of length `bits` into
a prefix, without touching the bits on either side. -/
def inetSubPrefix (p : InetPrefix) (bits bitIncr index : ℕ) : Except Failure InetPrefix :=
  let shift := subBits bits - bitIncr
  let mask := ((1 <<< bitIncr) - 1) <<< shift
  if 0 < bitIncr ∧ bitIncr ≤ subBits bits ∧ index = index &&& mask then
    let octet := p.octets.getD (bits >>> 3) 0
    let octet' := octet &&& ~~~(BitVec.ofNat 8 (mask <<< subShift bits)) |||
      BitVec.ofNat 8 (index <<< subShift bits)
    .ok { p with octets := p.octets.set (bits >>> 3) octet' }
  else .error .stop

def rightZero : List ℕ :=
  [4, 0, 1, 0, 2, 0, 1, 0, 3, 0, 1, 0, 2, 0, 1, 0]

structure AutoNet where
  pfx : InetPrefix
  best : InetBest
  result : InetBest
  last : Option DbObject

/-- The compare bits and the left bits of index `i`, where `left` are those of the block. -/
def autoNetBits (base left sbits : ℕ) (blk : InetBlock) (i : ℕ) : ℕ × ℕ :=
  if i ≠ 0 then
    (blk.bits + subBits blk.bits - rightZero.getD i 0,
      blk.bits + subBits blk.bits - rightZero.getD i 0)
  else if left = base then (blk.bits + sbits, left)
  else (left, left)

/-- One round of the loop of `Inet_Auto_Net`, for the `subcount` sub-blocks from index `i` on;
`visit` is the recursive call. -/
def inetAutoNetRound (t : Tree) (want base left : ℕ) (blk : InetBlock) (sbits subcount : ℕ)
    (visit : InetPrefix → InetBlock → InetBest → ℕ → Except Failure (InetBest × InetPrefix))
    (s : AutoNet) (i : ℕ) : Except Failure AutoNet :=
  let (cmpBits, leftBits) := autoNetBits base left sbits blk i
  match (List.range subcount).findSome? fun j => nth (t.subs blk.block) (i + j) with
  | none =>
    if cmpBits < s.pfx.bits ∨ s.best = .noneBest ∨
        (s.best = .zeroBest ∧ cmpBits = s.pfx.bits) then do
      let best : InetBest := if leftBits = base then .zeroBest else .otherBest
      let p ← inetSubPrefix { s.pfx with bits := cmpBits } blk.bits sbits i
      return { s with
        pfx := p
        best := best
        result := best }
    else return s
  | some o =>
    if blk.bits + sbits < want then
      if subcount ≠ 1 then .error .stop
      else if s.last = some o then return s
      else if inetFirstItem t o .net = none ∧ inetFirstItem t o .range = none then do
        -- The sub-block is taken to end at the next boundary.
        let (subBest, p) ← visit s.pfx ⟨blk.bits + sbits, o⟩ s.best leftBits
        if subBest ≠ .noneBest then do
          let p' ← inetSubPrefix p blk.bits sbits i
          return ⟨p', subBest, subBest, some o⟩
        else return { s with
          pfx := p
          last := some o }
      else return { s with last := some o }
    else return s

/-- `Inet_Auto_Net`: the best vacant prefix of `want` bits inside a block.  The bits after those of
the result are left over from other candidates. -/
def inetAutoNet (t : Tree) (want base : ℕ) :
    ℕ → InetPrefix → InetBlock → InetBest → ℕ → Except Failure (InetBest × InetPrefix)
  | 0, _, _, _, _ => .error .stop
  | fuel + 1, p, blk, best, left => do
    let sbits := subBits blk.bits
    let count := 1 <<< sbits
    let small := want < blk.bits + sbits
    let subcount := if small then 1 <<< (blk.bits + sbits - want) else 1
    let sbits := if small then want - blk.bits else sbits
    let s ← (List.range' 0 (count / subcount) subcount).foldlM
      (inetAutoNetRound t want base left blk sbits subcount (inetAutoNet t want base fuel))
      ⟨p, best, .noneBest, none⟩
    return (s.result, s.pfx)

def inetAutoNetCmd (fam : Family) (st : State) (net : DbObject) (bits : ℤ) (bitstring : CString)
    (sub : DbObject) : Except Failure CString :=
  if bits < 0 then .error (.etoosmall sub fam.netBitsAttribute bitstring (decimal 0))
  else if bits > (fam.bits : ℤ) - 1 then
    .error (.etoobig sub fam.netBitsAttribute bitstring (decimal (fam.bits - 1)))
  else
    match st.net.info net with
    | some (.net start netBits _ _) =>
      match inetNetPrefix fam st.tree net start netBits with
      | .error _ => .error .stop
      | .ok p =>
        match (inetFind fam st.tree p).2 with
        | none => .error .stop
        | some blk =>
          if blk.bits ≠ p.bits then .error .stop
          else if bits > netBits then do
            let (best, p') ← inetAutoNet st.tree bits.toNat netBits bits.toNat p blk
              .noneBest netBits
            if best ≠ .noneBest then
              return udbRadix16Encode p'.octets ++ ' ' :: decimal p'.bits
            else .error (.einetfull sub fam.netNetofAttribute net)
          else .error (.einetfull sub fam.netNetofAttribute net)
    | _ => .error (.einetnotnode net fam.fname)

/-! ## Bits of an index -/

/-- The mask of `Inet_Sub_Prefix` has the first `incr` of `width` bits. -/
theorem testBit_subMask (width incr j : ℕ) (hle : incr ≤ width) :
    (((1 <<< incr) - 1) <<< (width - incr)).testBit j = decide (width - incr ≤ j ∧ j < width) := by
  rw [Nat.one_shiftLeft]
  by_cases hj : width - incr ≤ j
  · have hiff : j - (width - incr) < incr ↔ j < width := by omega
    simp [hj, hiff]
  · simp [hj]

/-- An index whose last bits are clear passes the assertion. -/
theorem and_subMask {width : ℕ} (hle : incr ≤ width) (hindex : index < 2 ^ width)
    (hmod : index % 2 ^ (width - incr) = 0) :
    index = index &&& (((1 <<< incr) - 1) <<< (width - incr)) := by
  apply Nat.eq_of_testBit_eq
  intro j
  rw [Nat.testBit_and, testBit_subMask _ _ _ hle]
  by_cases hj : width - incr ≤ j
  · by_cases hw : j < width
    · simp [hj, hw]
    · have hbit : index.testBit j = false :=
        Nat.testBit_lt_two_pow
          (lt_of_lt_of_le hindex (Nat.pow_le_pow_right (by norm_num) (by omega)))
      simp [hbit]
  · have hbit := congrArg (fun x => Nat.testBit x j) hmod
    have hlow : j < width - incr := by omega
    have hbit' : index.testBit j = false := by simpa [hlow] using hbit
    simp [hbit']

/-- Writing the bits of an index that a mask covers into an octet. -/
theorem getMsbD_write (octet : BitVec 8) {mask shift m : ℕ} (hand : index = index &&& mask)
    (hm : m < 8) :
    (octet &&& ~~~(BitVec.ofNat 8 (mask <<< shift)) |||
        BitVec.ofNat 8 (index <<< shift)).getMsbD m =
      if shift ≤ 7 - m ∧ mask.testBit (7 - m - shift) = true then index.testBit (7 - m - shift)
      else octet.getMsbD m := by
  have hlt : 7 - m < 8 := by omega
  have hindex : index.testBit (7 - m - shift) =
      (index.testBit (7 - m - shift) && mask.testBit (7 - m - shift)) := by
    conv_lhs => rw [hand, Nat.testBit_and]
  rw [BitVec.getMsbD_or, BitVec.getMsbD_and, BitVec.getMsbD_not]
  simp only [BitVec.getMsbD, BitVec.getLsbD_ofNat, Nat.testBit_shiftLeft, hm, decide_true,
    Bool.true_and, ge_iff_le]
  by_cases hs : shift ≤ 7 - m
  · cases hbit : mask.testBit (7 - m - shift) with
    | true => simp [hs, hlt]
    | false =>
      rw [hbit, Bool.and_false] at hindex
      simp [hs, hindex]
  · simp [hs]

lemma inetSubPrefix_spec (hlen : bits >>> 3 < p.octets.length) (hpos : 0 < incr)
    (hle : incr ≤ subBits bits) (hindex : index < 2 ^ subBits bits)
    (hmod : index % 2 ^ (subBits bits - incr) = 0) :
    ∃ p', inetSubPrefix p bits incr index = .ok p' ∧ p'.bits = p.bits ∧
      p'.octets.length = p.octets.length ∧ ∀ k, p'.stream k =
        if bits ≤ k ∧ k < bits + incr then index.testBit (boundary bits - 1 - k) else p.stream k := by
  have hand := and_subMask hle hindex hmod
  refine ⟨_, if_pos ⟨hpos, hle, hand⟩, rfl, length_set, fun k => ?_⟩
  have hsub := subBits_eq bits
  have hbound := boundary_eq bits
  have height : bits &&& (2 ^ 3 - 1) = bits % 2 ^ 3 := Nat.and_two_pow_sub_one_eq_mod bits 3
  have hshift : subShift bits = 8 - bits % 8 - subBits bits := by
    simpa [subShift] using congrArg (fun x => 8 - x - subBits bits) height
  have hdiv : bits >>> 3 = bits / 8 := Nat.shiftRight_eq_div_pow bits 3
  show BitVec.getMsbD ((p.octets.set (bits >>> 3) _).getD (k / 8) 0) (k % 8) = _
  by_cases hoct : k / 8 = bits / 8
  · -- The bit lies in the octet that is written.
    rw [hoct, ← hdiv, getD_eq_getElem?_getD, getElem?_set_self hlen, Option.getD_some,
      getMsbD_write _ hand (Nat.mod_lt k (by norm_num)), testBit_subMask _ _ _ hle]
    have hbit : subShift bits ≤ 7 - k % 8 → 7 - k % 8 - subShift bits = boundary bits - 1 - k := by
      omega
    by_cases hin : bits ≤ k ∧ k < bits + incr
    · rw [if_pos, if_pos hin, hbit (by omega)]
      refine ⟨by omega, ?_⟩
      rw [decide_eq_true_eq]
      omega
    · rw [if_neg, if_neg hin, InetPrefix.stream, hoct, hdiv]
      rintro ⟨hs, hmask⟩
      rw [decide_eq_true_eq] at hmask
      omega
  · rw [getD_eq_getElem?_getD, getElem?_set_ne (by rw [hdiv]; exact fun h => hoct h.symm)]
    rw [if_neg (by omega)]
    rfl

lemma rightZero_mod : ∀ i < 16, i % 2 ^ rightZero.getD i 0 = 0 := by
  decide

lemma le_rightZero : ∀ i < 16, i ≠ 0 → ∀ z < 5, i % 2 ^ z = 0 → z ≤ rightZero.getD i 0 := by
  decide

lemma rightZero_le {w : ℕ} (hi : i < 2 ^ w) (hw : w ≤ 4) (hne : i ≠ 0) :
    rightZero.getD i 0 ≤ w := by
  have hlt : i < 16 := lt_of_lt_of_le hi (Nat.pow_le_pow_right (by norm_num) hw)
  have hdvd : 2 ^ rightZero.getD i 0 ∣ i := Nat.dvd_of_mod_eq_zero (rightZero_mod i hlt)
  have hpow : 2 ^ rightZero.getD i 0 < 2 ^ w :=
    lt_of_le_of_lt (Nat.le_of_dvd (Nat.pos_of_ne_zero hne) hdvd) hi
  exact le_of_lt ((Nat.pow_lt_pow_iff_right (by norm_num)).1 hpow)

/-- The candidate at an index has no bits after its left bits, and these are not more than the bits
that are written. -/
theorem autoNetBits_spec (base : ℕ) (blk : InetBlock) {left sbits : ℕ} {a : BitStream}
    (hleft : left ≤ blk.bits) (hclear : ∀ k, left ≤ k → k < blk.bits → a k = false)
    (hsbits : sbits ≤ subBits blk.bits) (hi : i < 2 ^ subBits blk.bits)
    (hmod : i % 2 ^ (subBits blk.bits - sbits) = 0) :
    (autoNetBits base left sbits blk i).1 ≤ blk.bits + sbits ∧
      (autoNetBits base left sbits blk i).2 ≤ boundary blk.bits ∧
      (∀ k, (autoNetBits base left sbits blk i).1 ≤ k →
        splice a blk.bits (subBits blk.bits) i k = false) ∧
      ∀ k, (autoNetBits base left sbits blk i).2 ≤ k →
        splice a blk.bits (subBits blk.bits) i k = false := by
  have hsub := subBits_eq blk.bits
  have hzero : ∀ k, left ≤ k → splice a blk.bits (subBits blk.bits) 0 k = false := by
    intro k hk
    rcases lt_or_ge k blk.bits with hlt | hge
    · rw [splice_agree a _ _ 0 k hlt]
      exact hclear k hk hlt
    · exact splice_eq_false a (le_refl _) (Nat.zero_mod _) (by omega)
  unfold autoNetBits boundary
  by_cases hne : i = 0
  · subst hne
    rw [if_neg (by simp)]
    split
    · exact ⟨le_refl _, by omega, fun k hk => hzero k (by omega), hzero⟩
    · exact ⟨by omega, by omega, hzero, hzero⟩
  · have hfour : subBits blk.bits ≤ 4 := by omega
    have hlt : i < 2 ^ 4 := lt_of_lt_of_le hi (Nat.pow_le_pow_right (by norm_num) hfour)
    have hz := rightZero_le hi (by omega) hne
    have hge := le_rightZero i hlt hne (subBits blk.bits - sbits) (by omega) hmod
    rw [if_pos hne]
    refine ⟨by omega, by omega, fun k hk => ?_, fun k hk => ?_⟩
    · exact splice_eq_false a hz (rightZero_mod i hlt) hk
    · exact splice_eq_false a hz (rightZero_mod i hlt) hk

/-! ## Blocks of the search -/

/-- Every block without a net and without ranges ends at a boundary. -/
def Natural (t : Tree) (T : Coverage) : Prop :=
  ∀ {c a}, T c a → t.items .net c = [] → t.items .range c = [] → t.bits c % 4 = 0

section Search

variable {t : Tree} {r c : DbObject} {T : Coverage} {a : BitStream}

/-- The sub-block at an index holds the address that ends with this index. -/
theorem Shape.splice_child (h : Shape fam t r T) (hc : T c a) (hi : i < 2 ^ subBits (t.bits c))
    (ho : nth (t.subs c) i = some o) :
    T o (splice a (t.bits c) (subBits (t.bits c)) i) ∧ t.bits c < t.bits o := by
  have hmem : T c (splice a (t.bits c) (subBits (t.bits c)) i) :=
    h.cover.mem_of_agree hc (splice_agree a _ _ i).symm
  have hchild : (t.layout r).child c (splice a (t.bits c) (subBits (t.bits c)) i) = some o := by
    rw [layout_child, window_splice a _ _ hi]
    exact ho
  have hsub := h.cover.child_mem hmem hchild
  exact ⟨hsub.1, hsub.2.2⟩

/-- The length of the sub-blocks of a group, and their number. -/
theorem group_eq (hlt : t.bits c < want) :
    (if want < t.bits c + subBits (t.bits c) then
        1 <<< (t.bits c + subBits (t.bits c) - want) else 1) =
        2 ^ (boundary (t.bits c) - want) ∧
      (if want < t.bits c + subBits (t.bits c) then want - t.bits c else subBits (t.bits c)) =
        subBits (t.bits c) - (boundary (t.bits c) - want) := by
  have hbound : boundary (t.bits c) = t.bits c + subBits (t.bits c) := rfl
  split
  · rw [Nat.one_shiftLeft]
    exact ⟨rfl, by omega⟩
  · have hzero : boundary (t.bits c) - want = 0 := by omega
    rw [hzero]
    exact ⟨rfl, rfl⟩

end Search

/-! ## Blocks without nets -/

/-- A net is only deleted from a block that does not end at a boundary when another net or a range
stays on the block, or nothing at all inside the prefix. -/
def Op.KeepsNatural (σ : Config) : Op → Prop
  | .insert _ _ => True
  | .delete o _ _ => ∀ e, σ.dir o = some e → e.type = .net → e.pfx.bits % 4 ≠ 0 →
      (∃ x e', x ≠ o ∧ σ.dir x = some e' ∧ e'.type ≠ .node ∧ e'.pfx.bits = e.pfx.bits ∧
        Agree e.pfx.bits e.pfx.stream e'.pfx.stream) ∨ Alone σ.dir o e.pfx

lemma InsertStep.natural {info : InetInfo} {net : Option DbObject}
    (hs : InsertStep fam σ σ' o info p b net)
    (hnat : Natural σ.state.tree fun b a => σ.state.tree.Covers a b) :
    Natural σ'.state.tree fun b a => σ'.state.tree.Covers a b := by
  intro c a hc hnets hranges
  have hold : ∀ type, σ'.state.tree.items type c = [] → σ.state.tree.items type c = [] := by
    intro type hnil
    rw [eq_nil_iff_forall_not_mem] at hnil ⊢
    intro x hx
    refine hnil x ?_
    rw [hs.enrolled.items]
    exact mem_setItems_append.2 (.inl hx)
  by_cases hlive : σ.state.tree.Covers a c
  · rw [hs.enrolled.bits hlive]
    exact hnat hlive (hold .net hnets) (hold .range hranges)
  · rcases hs.enrolled.natural_new hc hlive with hfour | rfl
    · exact hfour
    · -- A new block for a net or a range carries it.
      have hmem := hs.enrolled.located_new.listed
      have hbits : σ'.state.tree.bits c = p.bits := hs.enrolled.bits_block
      have hacc := inetInfoPrefix_accepted hs.accepted
      cases htype : info.objType with
      | net =>
        have hnot : o ∈ σ'.state.tree.items .net c := htype ▸ hmem
        rw [hnets] at hnot
        cases hnot
      | range =>
        have hnot : o ∈ σ'.state.tree.items .range c := htype ▸ hmem
        rw [hranges] at hnot
        cases hnot
      | node =>
        rw [htype] at hacc
        have hfull : p.bits = fam.bits := hacc.2
        have := fam_bits fam
        omega

lemma DeleteStep.natural {now : ℕ} {attributes : Option InetInfo} {e : Entry}
    (hs : DeleteStep fam σ σ' o now attributes e b) (h : Sound fam σ.state σ.dir)
    (hkeep : (Op.delete o now attributes).KeepsNatural σ)
    (hnat : Natural σ.state.tree fun b a => σ.state.tree.Covers a b) :
    Natural σ'.state.tree fun b a => σ'.state.tree.Covers a b := by
  intro c a hc hnets hranges
  rcases h.wf.filing with ⟨r, hfile⟩
  have hbefore := hs.withdrawn.mem hc
  have hloc := hs.withdrawn.located
  rw [hs.withdrawn.bits]
  by_cases hcb : c = b
  · subst hcb
    by_contra hfour
    have hbits : σ.state.tree.bits c = e.pfx.bits := hloc.bits
    have hodd : e.pfx.bits % 4 ≠ 0 := by
      rw [← hbits]
      exact hfour
    refine hs.withdrawn.natural (fun htype => ?_) hnets hranges hodd a hc
    rcases hkeep e hs.filed htype hodd with ⟨x, e', hxo, hx, hnode, hlen, hag⟩ | halone
    · -- The other item of the block is still there.
      exfalso
      have hxloc : Located σ.state.tree (fun b a => σ.state.tree.Covers a b) x e' c := by
        have hmem : σ.state.tree.Covers e'.pfx.stream c :=
          hfile.shape.cover.mem_of_agree hloc.mem (by rw [layout_len, hbits]; exact hag)
        exact ⟨hmem, hbits.trans hlen.symm, hfile.block_eq hx hmem (hbits.trans hlen.symm)⟩
      have hlisted := (hs.withdrawn.other_located (hfile.listed_once e.type hloc.mem) hxo hxloc).listed
      cases htype' : e'.type with
      | node => exact hnode htype'
      | net =>
        rw [htype', hnets] at hlisted
        cases hlisted
      | range =>
        rw [htype', hranges] at hlisted
        cases hlisted
    · exact halone
  · have hsame : ∀ type, σ'.state.tree.items type c = σ.state.tree.items type c := by
      intro type
      rw [hs.withdrawn.items]
      exact setItems_of_ne _ _ (.inr hcb)
    rw [hsame] at hnets hranges
    exact hnat hbefore hnets hranges

/-! ## The command -/

/-- The address that a result stands for: only the first bits count. -/
def InetPrefix.cleared (p : InetPrefix) : BitStream :=
  fun k => decide (k < p.bits) && p.stream k

lemma inetNetPrefix_bits {t : Tree} {start : CString}
    (h : inetNetPrefix fam t o start bits = .ok p) : p.bits = bits := by
  unfold inetNetPrefix at h
  split at h
  · cases h
  · split at h
    · cases h
    · split at h
      · cases h
      · split at h
        · cases h
        · cases h
          rfl

/-- `Inet_Auto_NetCmd` starts the search at the block of the net. -/
theorem Valid.autoNetCmd_start (h : Valid fam σ) (hnet : σ.dir net = some ⟨.net, q⟩)
    (hmax : want < fam.bits) (bitstring : CString) (sub : DbObject)
    (hreach : Reaches fam σ.state.tree q b) :
    inetAutoNetCmd fam σ.state net want bitstring sub =
      if q.bits < want then do
        let (best, p) ← inetAutoNet σ.state.tree want q.bits want q ⟨q.bits, b⟩ .noneBest q.bits
        if best ≠ .noneBest then return udbRadix16Encode p.octets ++ ' ' :: decimal p.bits
        else .error (.einetfull sub fam.netNetofAttribute net)
      else .error (.einetfull sub fam.netNetofAttribute net) := by
  rcases h.described net _ hnet with ⟨info, hinfo, htype, hprefix⟩
  cases info with
  | node address => cases htype
  | range start last type devices => cases htype
  | net start netBits mask type =>
    have hprefix' : inetNetPrefix fam σ.state.tree net start netBits = .ok q := hprefix
    obtain rfl : q.bits = netBits := inetNetPrefix_bits hprefix'
    unfold inetAutoNetCmd
    rw [if_neg (by omega), if_neg (by omega), hinfo]
    dsimp only
    rw [hprefix']
    dsimp only
    rw [show (inetFind fam σ.state.tree q).2 = some ⟨q.bits, b⟩ from hreach]
    dsimp only
    rw [if_neg (by simp), Int.toNat_natCast]
    simp only [gt_iff_lt, Nat.cast_lt]

lemma Valid.autoNetCmd_eq (h : Valid fam σ) (hnet : σ.dir net = some ⟨.net, q⟩)
    (hlt : q.bits < want) (hmax : want < fam.bits) (bitstring : CString) (sub : DbObject)
    (hreach : Reaches fam σ.state.tree q b) {result : InetBest}
    (heq : inetAutoNet σ.state.tree want q.bits want q ⟨q.bits, b⟩ .noneBest q.bits =
      .ok (result, p)) :
    inetAutoNetCmd fam σ.state net want bitstring sub =
      if result ≠ .noneBest then .ok (udbRadix16Encode p.octets ++ ' ' :: decimal p.bits)
      else .error (.einetfull sub fam.netNetofAttribute net) := by
  rw [h.autoNetCmd_start hnet hmax bitstring sub hreach, if_pos hlt, heq]
  rfl

/-- A run that leaves no unnatural blocks behind. -/
theorem natural_of_run
    (hrun : Run fam (fun σ op => op.Aligned fam σ ∧ op.KeepsNatural σ) Config.empty σ) :
    σ = Config.empty ∨
      (Valid fam σ ∧ Natural σ.state.tree fun b a => σ.state.tree.Covers a b) := by
  refine hrun.reached (I := fun σ => Natural σ.state.tree fun b a => σ.state.tree.Covers a b)
    (fun hok => hok.1) (fun hstep _ => ?_) (fun {σ op σ'} hvalid hnat hok hstep => ?_)
  · rcases (Valid.first hstep).2 with ⟨o, info, p, _, rfl⟩
    intro c a _ _ _
    simp [inetInsertRoot, State.setInfo, State.empty, Tree.empty]
  · rcases step_cases hvalid.sound hok.1 hstep with
      ⟨_, ⟨o, info, p, b, net, rfl, hs⟩ | ⟨o, now, attributes, e, b, rfl, hs⟩⟩
    · exact hs.natural hnat
    · exact hs.natural hvalid.sound hok.2 hnat

section

variable (h : runOps fam τ (nets.map fun n => .insert n.1 (.net n.2.1 n.2.2 [] [])) = some σ)

include h

/-- Nets can be inserted in any order. -/
theorem run_of_nets : Run fam (fun σ op => op.Aligned fam σ ∧ op.KeepsNatural σ) τ σ := by
  induction nets generalizing τ with
  | nil =>
    obtain rfl : τ = σ := Option.some.inj h
    exact .refl
  | cons n nets ih =>
    rcases runOps_cons h with ⟨τ₁, hfirst, hrest⟩
    have haligned : (Op.insert n.1 (.net n.2.1 n.2.2 [] [])).Aligned fam τ := fun p hp =>
      .inl ((inetInfoPrefix_accepted hp).alignedAt (by simp [InetInfo.objType]))
    exact .head ⟨_, ⟨haligned, trivial⟩, hfirst⟩ (ih hrest)

/-- Only the nets of the list are new in the directory. -/
theorem dir_of_nets {x : DbObject} (hx : x ∉ nets.map Prod.fst) : σ.dir x = τ.dir x := by
  induction nets generalizing τ with
  | nil =>
    obtain rfl : τ = σ := Option.some.inj h
    rfl
  | cons n nets ih =>
    rcases runOps_cons h with ⟨τ₁, hfirst, hrest⟩
    rcases step_insert hfirst with ⟨p, _, _, rfl⟩
    rw [map_cons, mem_cons, not_or] at hx
    rw [ih hrest hx.2]
    exact Function.update_of_ne hx.1 _ _

end

end Inet
end Unameit
