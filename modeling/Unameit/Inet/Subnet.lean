import Unameit.Inet.Choice
import Unameit.Address
import Unameit.NetCheck.Basic

/-!
# Subnet — `unameit_inet_auto_net`

The trigger for a new net without a start address asks `udb_inet_auto_net` for a vacant block of
its parent net.  The search does not know that the first or the last subnet may be reserved: if the
first one was found, its second half is tried; if the last one was found, the net is full.

The procedure works on texts.  `Stored` says that those of the parent net are the texts of its first
and last address, as the canonicalization and the triggers leave them.
-/

namespace Unameit
namespace Inet

open BitStream (Agree)
open Address (hexText bitwise makeMask bitwise_hexText makeMask_right hexText_eq_iff hexText_congr)
open NetCheck (Choice unameitAddressMaskBits)
open InetPrefix

/-! ## The procedure -/

/-- The errors of the procedure: those of the commands it calls, its own, and that of `udb_fetch`
for an object that is not a net. -/
inductive SubnetFault
  | udb (failure : Failure)
  | address (fault : Address.Fault)
  | einetautotop (object : DbObject)
  | enull (object : DbObject) (aname : CString)
  | noSuchAttribute (net : DbObject)
  deriving DecidableEq, Repr

structure Subnet where
  netStart : CString
  netEnd : CString
  netBits : ℤ
  netMask : CString
  deriving DecidableEq, Repr

structure SubnetInfo where
  netZero : Choice
  lastNet : Choice
  netEnd : DbObject → CString

variable {b a : BitStream} {n want : ℕ} {st : State} {netBits pmbits : ℤ} {fault : SubnetFault}
  {netMask : CString}

/-- The length of the new net: if none is given, that of the mask of a parent that is subnetted, and
otherwise that of the new mask. -/
def requestedBits (uuid : DbObject) (aname : CString) (pbits pmbits mbits : ℤ) :
    Option ℤ → Except SubnetFault ℤ
  | some netBits => .ok netBits
  | none =>
    if pmbits = pbits then
      if mbits ≤ pmbits then .error (.enull uuid aname) else .ok mbits
    else .ok pmbits

def subnetMask (fam : Family) (pmbits netBits : ℤ) (netMask : CString) :
    Except SubnetFault CString :=
  if netMask = [] then
    (makeMask fam.octets (if netBits ≤ pmbits then pmbits else netBits)).mapError .address
  else .ok netMask

/-- The start of the new net, from the address and the number of bits that the search has returned.
Of a reserved subnet zero the second half is taken. -/
def subnetStart (fam : Family) (netZero : Choice) (uuid net : DbObject) (pstart : CString)
    (netBits : ℤ) (start : CString) (bits : ℤ) : Except SubnetFault CString := do
  let (start, bits) ←
    if netZero = .reserved ∧ pstart = start then do
      let m ← (makeMask fam.octets (bits - fam.bits)).mapError .address
      let start ← (bitwise .or start m).mapError .address
      if bits + 1 > netBits then .error (.udb (.einetfull uuid fam.netNetofAttribute net))
      else .ok (start, bits + 1)
    else .ok (start, bits)
  let m ← (makeMask fam.octets (bits - fam.bits)).mapError .address
  (bitwise .mask start m).mapError .address

/-- The end of the new net, unless that is the reserved last subnet. -/
def subnetEnd (fam : Family) (lastNet : Choice) (uuid net : DbObject) (pend : CString)
    (netBits : ℤ) (netStart : CString) : Except SubnetFault CString := do
  let m ← (makeMask fam.octets (netBits - fam.bits)).mapError .address
  let netEnd ← (bitwise .or netStart m).mapError .address
  if lastNet = .reserved ∧ netEnd = pend then
    .error (.udb (.einetfull uuid fam.netNetofAttribute net))
  else .ok netEnd

def startAndBits (text : CString) : CString × ℕ :=
  (text.takeWhile (· ≠ ' '), Nat.ofDigitChars 10 ((text.dropWhile (· ≠ ' ')).drop 1) 0)

def subnetBlock (fam : Family) (info : SubnetInfo) (st : State) (uuid net : DbObject)
    (pstart : CString) (netBits : ℤ) : Except SubnetFault (CString × CString) := do
  let text ← (inetAutoNetCmd fam st net netBits (toString netBits).toList uuid).mapError .udb
  let (start, bits) := startAndBits text
  let netStart ← subnetStart fam info.netZero uuid net pstart netBits start bits
  let netEnd ← subnetEnd fam info.lastNet uuid net (info.netEnd net) netBits netStart
  return (netStart, netEnd)

def unameitInetAutoNet (fam : Family) (info : SubnetInfo) (st : State) (uuid net : DbObject)
    (netBits : Option ℤ) (netMask : CString) : Except SubnetFault Subnet :=
  match st.net.info net with
  | some (.net pstart pbits pmask _) =>
    let pmbits := unameitAddressMaskBits pmask
    if pbits = 0 then .error (.einetautotop uuid)
    else do
      let netBits ← requestedBits uuid fam.netBitsAttribute pbits pmbits
        (unameitAddressMaskBits netMask) netBits
      let netMask ← subnetMask fam pmbits netBits netMask
      let (netStart, netEnd) ← subnetBlock fam info st uuid net pstart netBits
      return ⟨netStart, netEnd, netBits, netMask⟩
  | _ => .error (.noSuchAttribute net)

/-! ## What it is for -/

def lastAddress (n : ℕ) (a : BitStream) : BitStream :=
  fun k => a k || decide (n ≤ k)

def addressText (fam : Family) (a : BitStream) : CString :=
  hexText (2 * fam.octets) a

/-- The address `a` starts an aligned block of `want` bits strictly inside the prefix `q`, in which
there is no item. -/
structure FreeBlock (dir : Directory) (q : InetPrefix) (want : ℕ) (a : BitStream) : Prop where
  strict : q.bits < want
  inside : Agree q.bits a q.stream
  start : ∀ k, want ≤ k → a k = false
  no_item : ∀ {x e}, dir x = some e → Agree want a e.pfx.stream → e.pfx.bits < want

/-- The settings of the family do not reserve the block of `want` bits at `a`. -/
structure Allowed (info : SubnetInfo) (q : InetPrefix) (want : ℕ) (a : BitStream) : Prop where
  first : info.netZero = .reserved → a ≠ q.stream
  last : info.lastNet = .reserved → lastAddress want a ≠ lastAddress q.bits q.stream

/-- The only open blocks are the first one and the last one, and only the last one is reserved: the
search then prefers the last one. -/
structure Pinched (info : SubnetInfo) (t : Tree) (q : InetPrefix) (want : ℕ) : Prop where
  available : info.netZero = .available
  reserved : info.lastNet = .reserved
  first : OpenBlock t q want q.stream
  last : ∃ a, OpenBlock t q want a ∧ lastAddress want a = lastAddress q.bits q.stream
  only : ∀ a, OpenBlock t q want a →
    a = q.stream ∨ lastAddress want a = lastAddress q.bits q.stream

/-- The texts stored for a net are those of its first and of its last address, and the mask is not
too long. -/
def Stored (fam : Family) (info : SubnetInfo) (st : State) (net : DbObject) (q : InetPrefix)
    (mask : CString) : Prop :=
  (∃ type, st.net.info net = some (.net (addressText fam q.stream) q.bits mask type)) ∧
    info.netEnd net = addressText fam (lastAddress q.bits q.stream) ∧
    mask.length ≤ 2 * fam.octets

/-! ## Texts -/

variable {fam : Family}

section Texts

variable {m : ℕ}

lemma addressText_eq_iff : addressText fam a = addressText fam b ↔ Agree fam.bits a b := by
  rw [addressText, addressText, hexText_eq_iff, fam_bits, ← Nat.mul_assoc]

lemma makeMask_sub (hm : m < fam.bits) :
    makeMask fam.octets ((m : ℤ) - fam.bits) = .ok (addressText fam fun k => decide (m ≤ k)) := by
  rw [fam_bits] at hm ⊢
  exact makeMask_right hm

lemma bitwise_addressText (op : Address.BitwiseOp) (a b : BitStream) :
    bitwise op (addressText fam a) (addressText fam b) =
      .ok (addressText fam fun k => op.bit (a k) (b k)) :=
  bitwise_hexText op (Nat.mul_mod_right 2 _) a b

lemma startAndBits_eq (fam : Family) (a : BitStream) (n : ℕ) :
    startAndBits (addressText fam a ++ ' ' :: decimal n) = (addressText fam a, n) := by
  have hdigit : ∀ c ∈ addressText fam a, (decide (c ≠ ' ')) = true := by
    intro c hc
    rcases List.mem_map.1 hc with ⟨k, _, rfl⟩
    exact decide_eq_true (Address.hexChar_ne_space _ (Address.window_lt_sixteen _ _))
  have hdecimal : decimal n = Nat.toDigits 10 n := by
    show (Nat.repr n).toList = _
    rw [Nat.repr_eq_ofList_toDigits, String.toList_ofList]
  unfold startAndBits
  rw [List.takeWhile_append_of_pos hdigit, List.dropWhile_append_of_pos hdigit, hdecimal]
  simp [Nat.ofDigitChars_toDigits]

lemma unameitAddressMaskBits_le (mask : CString) :
    unameitAddressMaskBits mask ≤ 4 * mask.length := by
  have hlen : (mask.takeWhile (· = 'f')).length + (mask.dropWhile (· = 'f')).length =
      mask.length := by
    rw [← List.length_append, List.takeWhile_append_dropWhile]
  unfold unameitAddressMaskBits
  -- a digit after the ones adds less than four bits
  split
  all_goals
    dsimp only
    split_ifs <;> grind

end Texts

/-! ## The steps -/

def InetPrefix.secondHalf (p : InetPrefix) : BitStream :=
  fun k => decide (k = p.bits) || p.cleared k

variable {q p : InetPrefix}

section Steps

variable (uuid net : DbObject)

lemma subnetStart_eq (netZero : Choice) (hle : p.bits ≤ want) (hmax : want < fam.bits) :
    subnetStart fam netZero uuid net (addressText fam q.stream) want (addressText fam p.stream)
        p.bits =
      if netZero = .reserved ∧ addressText fam q.stream = addressText fam p.stream then
        if p.bits = want then .error (.udb (.einetfull uuid fam.netNetofAttribute net))
        else .ok (addressText fam p.secondHalf)
      else .ok (addressText fam p.cleared) := by
  unfold subnetStart
  by_cases hzero : netZero = .reserved ∧ addressText fam q.stream = addressText fam p.stream
  · rw [if_pos hzero, if_pos hzero, makeMask_sub (by omega)]
    simp only [Except.mapError, bitwise_addressText, bind, Except.bind]
    by_cases hfull : p.bits = want
    · rw [if_pos hfull, if_pos (by omega)]
    · rw [if_neg hfull, if_neg (by omega)]
      rw [show (p.bits : ℤ) + 1 = (p.bits + 1 : ℕ) by omega, makeMask_sub (by omega)]
      dsimp only
      rw [bitwise_addressText]
      refine congrArg Except.ok (congrArg _ (funext fun k => ?_))
      -- the bits from the length on are set, and cleared again after the first of them
      unfold secondHalf cleared
      rcases Nat.lt_trichotomy k p.bits with hk | rfl | hk
      · simp [Address.BitwiseOp.bit, hk, ne_of_lt hk, le_of_lt hk, Nat.not_le_of_lt hk]
      · simp [Address.BitwiseOp.bit]
      · simp [Address.BitwiseOp.bit, ne_of_gt hk, Nat.not_lt_of_lt hk, hk]
  · rw [if_neg hzero, if_neg hzero]
    simp only [bind, Except.bind]
    rw [makeMask_sub (by omega)]
    dsimp only [Except.mapError]
    rw [bitwise_addressText]
    refine congrArg Except.ok (congrArg _ (funext fun k => ?_))
    simp [Address.BitwiseOp.bit, cleared, Bool.and_comm, ← decide_not]

lemma subnetEnd_eq (lastNet : Choice) (hmax : want < fam.bits) (a e : BitStream) :
    subnetEnd fam lastNet uuid net (addressText fam e) want (addressText fam a) =
      if lastNet = .reserved ∧ addressText fam (lastAddress want a) = addressText fam e then
        .error (.udb (.einetfull uuid fam.netNetofAttribute net))
      else .ok (addressText fam (lastAddress want a)) := by
  unfold subnetEnd
  rw [makeMask_sub hmax]
  simp only [Except.mapError, bitwise_addressText, bind, Except.bind]
  rfl

/-- Blocks that fill the family end at the same address if they agree there. -/
theorem addressText_lastAddress {m : ℕ} (hm : m ≤ fam.bits) (hn : n ≤ fam.bits) :
    addressText fam (lastAddress m a) = addressText fam (lastAddress n b) ↔
      lastAddress m a = lastAddress n b := by
  refine ⟨fun h => funext fun k => ?_, fun h => congrArg _ h⟩
  rcases lt_or_ge k fam.bits with hk | hk
  · exact addressText_eq_iff.1 h k hk
  · unfold lastAddress
    simp [hm.trans hk, hn.trans hk]

lemma lastAddress_ne (hlt : n < want) (hbit : a n = false) :
    lastAddress want a ≠ lastAddress n b := by
  intro heq
  have hn := congrFun heq n
  simp only [lastAddress, hbit, Bool.false_or, le_refl, decide_true, Bool.or_true,
    decide_eq_true_eq] at hn
  omega

/-- A block that ends with the net has all its bits on. -/
theorem ones_of_lastAddress (heq : lastAddress want a = lastAddress n b) : Ones want n a := by
  intro k hk hkw
  have hbit := congrFun heq k
  simpa [lastAddress, hk, Nat.not_le_of_lt hkw] using hbit

end Steps

/-! ## The outcome -/

variable {σ : Config} {net : DbObject} {info : SubnetInfo}

section Outcome

variable {t : Tree} {g : BitStream}

abbrev Visited (t : Tree) (q : InetPrefix) (want : ℕ) (x : BitStream) : Prop :=
  Agree q.bits x q.stream ∧ Open t (fun b x => t.Covers x b) want q.bits x

section

variable (h : Scan want q.bits (Visited t q want) .zeroBest p g)
  (hwritten : Written want q.bits q.stream q p g)

include h hwritten

/-- If the first prefix is kept and is longer than necessary, then its second half is open, and it
is neither the first nor the last block. -/
theorem Scan.secondHalf (hlt : p.bits < want) (hclear : ∀ k, q.bits ≤ k → q.stream k = false) :
    OpenBlock t q want p.secondHalf ∧ p.secondHalf ≠ q.stream ∧
      lastAddress want p.secondHalf ≠ lastAddress q.bits q.stream := by
  rcases h.first rfl with ⟨hzero, hbase, hvisited, _⟩
  have hcleared := hwritten.cleared
  have hag : Agree p.bits p.secondHalf g := by
    intro k hk
    simpa [InetPrefix.secondHalf, ne_of_lt hk] using hcleared k (by omega)
  have hbit : p.secondHalf q.bits = false := by
    rw [hag _ hbase]
    exact hzero _ (le_refl _) (by omega)
  rcases hvisited _ hag with ⟨hin, hopen⟩
  refine ⟨⟨hin, fun k hk => ?_, hopen⟩, fun heq => ?_, lastAddress_ne (by omega) hbit⟩
  · have hne : k ≠ p.bits := by omega
    have hout : ¬ k < p.bits := by omega
    simp [InetPrefix.secondHalf, InetPrefix.cleared, hne, hout]
  · have hon : p.secondHalf p.bits = true := by simp [InetPrefix.secondHalf]
    rw [heq, hclear _ (le_of_lt hbase)] at hon
    cases hon

lemma Scan.stream_eq (hclear : ∀ k, q.bits ≤ k → q.stream k = false) : p.stream = q.stream := by
  funext k
  rcases lt_or_ge k q.bits with hk | hk
  · exact hwritten.above k hk
  · rw [h.clean nofun k hk, hclear k hk]

end

section

variable (h : Scan want q.bits (Visited t q want) .otherBest p g)
  (hwritten : Written want q.bits q.stream q p g)

include h hwritten

/-- Another prefix has a bit that the first one has not. -/
theorem Scan.bit : ∃ k, q.bits ≤ k ∧ k < p.bits ∧ p.stream k = true := by
  rcases (h.other rfl).2.1 with ⟨k, hk, hkw, hbit⟩
  have hin : k < p.bits := by
    by_contra hout
    rw [hwritten.clear k (by omega) hkw] at hbit
    cases hbit
  exact ⟨k, hk, hin, by rw [hwritten.stream k hk hin, hbit]⟩

/-- Open blocks other than the first one are the last one if that is what has been found. -/
theorem Scan.eq_of_ones (hfound : OpenBlock t q want p.cleared)
    (hclear : ∀ k, q.bits ≤ k → q.stream k = false) (hones : Ones want q.bits p.cleared)
    (ha : OpenBlock t q want a) : a = q.stream ∨ a = p.cleared := by
  by_cases hfirst : a = q.stream
  · exact .inl hfirst
  · have hg : Ones want q.bits g := fun k hk hkw => by
      rw [← hwritten.cleared k hkw]
      exact hones k hk hkw
    have hag := (h.other rfl).2.2.2 hg a ⟨ha.inside, ha.isOpen⟩ (ha.busy hclear hfirst)
    refine .inr (funext fun k => ?_)
    rcases lt_or_ge k want with hk | hk
    · rw [hag k hk, hwritten.cleared k hk]
    · rw [ha.start k hk, hfound.start k hk]

end

inductive Searched (fam : Family) (info : SubnetInfo) (t : Tree) (uuid net : DbObject)
    (q : InetPrefix) (want : ℕ) : Except SubnetFault (CString × CString) → Prop
  | found (a : BitStream) (isOpen : OpenBlock t q want a) (allowed : Allowed info q want a)
      (free : ¬ Pinched info t q want) :
      Searched fam info t uuid net q want
        (.ok (addressText fam a, addressText fam (lastAddress want a)))
  | full (none : ∀ a, OpenBlock t q want a → ¬ Allowed info q want a) :
      Searched fam info t uuid net q want
        (.error (.udb (.einetfull uuid fam.netNetofAttribute net)))
  | pinched (h : Pinched info t q want) :
      Searched fam info t uuid net q want
        (.error (.udb (.einetfull uuid fam.netNetofAttribute net)))

def finish (fam : Family) (info : SubnetInfo) (uuid net : DbObject) (q p : InetPrefix) (want : ℕ) :
    Except SubnetFault (CString × CString) := do
  let netStart ← subnetStart fam info.netZero uuid net (addressText fam q.stream) want
    (addressText fam p.stream) p.bits
  let netEnd ← subnetEnd fam info.lastNet uuid net
    (addressText fam (lastAddress q.bits q.stream)) want netStart
  return (netStart, netEnd)

section Finish

variable {uuid : DbObject} (hmax : want < fam.bits)
  (ha : subnetStart fam info.netZero uuid net (addressText fam q.stream) want
    (addressText fam p.stream) p.bits = .ok (addressText fam a))
include hmax ha

lemma finish_last (hres : info.lastNet = .reserved)
    (hend : lastAddress want a = lastAddress q.bits q.stream) :
    finish fam info uuid net q p want =
      .error (.udb (.einetfull uuid fam.netNetofAttribute net)) := by
  unfold finish
  rw [ha]
  simp only [bind, Except.bind]
  rw [subnetEnd_eq uuid net _ hmax, if_pos ⟨hres, congrArg _ hend⟩]

lemma finish_ok (hlt : q.bits < want)
    (hend : info.lastNet = .reserved → lastAddress want a ≠ lastAddress q.bits q.stream) :
    finish fam info uuid net q p want =
      .ok (addressText fam a, addressText fam (lastAddress want a)) := by
  unfold finish
  rw [ha]
  simp only [bind, Except.bind]
  rw [subnetEnd_eq uuid net _ hmax, if_neg]
  · rfl
  · rintro ⟨hres, heq⟩
    exact hend hres ((addressText_lastAddress (by omega) (by omega)).1 heq)

end Finish

lemma Scan.searched_first (h : Scan want q.bits (Visited t q want) .zeroBest p g)
    (hwritten : Written want q.bits q.stream q p g) (hclear : ∀ k, q.bits ≤ k → q.stream k = false)
    (hlt : q.bits < want) (hmax : want < fam.bits) (uuid : DbObject) :
    Searched fam info t uuid net q want (finish fam info uuid net q p want) := by
  have hstream := h.stream_eq hwritten hclear
  have hstart := subnetStart_eq (q := q) uuid net info.netZero (h.bits_le nofun) hmax
  rcases h.first rfl with ⟨_, hbase, _, hbusy⟩
  by_cases hzero : info.netZero = .reserved
  · rw [if_pos ⟨hzero, congrArg _ hstream.symm⟩] at hstart
    by_cases hfull : p.bits = want
    · rw [if_pos hfull] at hstart
      have herror : finish fam info uuid net q p want =
          .error (.udb (.einetfull uuid fam.netNetofAttribute net)) := by
        unfold finish
        rw [hstart]
        rfl
      rw [herror]
      refine .full fun a ha hallowed => ?_
      -- every other open block would need bits that do not exist
      rcases hbusy a ⟨ha.inside, ha.isOpen⟩ (ha.busy hclear (hallowed.first hzero)) with
        ⟨k, hk, hkw, _⟩
      omega
    · rw [if_neg hfull] at hstart
      have hle := h.bits_le nofun
      rcases h.secondHalf hwritten (by omega) hclear with ⟨hopen, hfirst, hend⟩
      rw [finish_ok hmax hstart hlt fun _ => hend]
      exact .found _ hopen ⟨fun _ => hfirst, fun _ => hend⟩ fun hp =>
        nomatch hzero.symm.trans hp.available
  · have hcleared : p.cleared = q.stream := by
      funext k
      unfold cleared
      rw [hstream]
      by_cases hk : k < p.bits
      · simp [hk]
      · simp [hk, hclear k (by omega)]
    rw [if_neg fun hres => hzero hres.1, hcleared] at hstart
    have hend : lastAddress want q.stream ≠ lastAddress q.bits q.stream :=
      lastAddress_ne hlt (hclear _ (le_refl _))
    rw [finish_ok hmax hstart hlt fun _ => hend]
    refine .found _ (hcleared ▸ h.openBlock hwritten nofun hlt)
      ⟨fun hres => absurd hres hzero, fun _ => hend⟩ fun hp => ?_
    -- the last block is open, so the first one has a second half
    rcases hp.last with ⟨a, ha, haend⟩
    have hother : a ≠ q.stream := by
      rintro rfl
      exact hend haend
    rcases hbusy a ⟨ha.inside, ha.isOpen⟩ (ha.busy hclear hother) with ⟨k, hk, hkw, _⟩
    rcases h.secondHalf hwritten (by omega) hclear with ⟨hopen, hfirst, hend'⟩
    rcases hp.only _ hopen with heq | heq
    · exact hfirst heq
    · exact hend' heq

lemma Scan.searched_other (h : Scan want q.bits (Visited t q want) .otherBest p g)
    (hwritten : Written want q.bits q.stream q p g) (hclear : ∀ k, q.bits ≤ k → q.stream k = false)
    (hlt : q.bits < want) (hmax : want < fam.bits) (uuid : DbObject) :
    Searched fam info t uuid net q want (finish fam info uuid net q p want) := by
  have hle := h.bits_le nofun
  have hfound := h.openBlock hwritten nofun hlt
  have hstart := subnetStart_eq (q := q) uuid net info.netZero hle hmax
  rcases h.bit hwritten with ⟨k, hk, hkp, hbit⟩
  have hfirst : p.cleared ≠ q.stream := by
    intro heq
    have hon := congrFun heq k
    rw [hclear k hk] at hon
    simp [cleared, hkp, hbit] at hon
  have hother : addressText fam q.stream ≠ addressText fam p.stream := by
    intro heq
    have hon := addressText_eq_iff.1 heq k (by omega)
    rw [hclear k hk, hbit] at hon
    cases hon
  rw [if_neg fun hres => hother hres.2] at hstart
  by_cases hend : info.lastNet = .reserved ∧
      lastAddress want p.cleared = lastAddress q.bits q.stream
  · rw [finish_last hmax hstart hend.1 hend.2]
    have honly : ∀ a, OpenBlock t q want a → a = q.stream ∨ a = p.cleared := fun a ha =>
      h.eq_of_ones hwritten hfound hclear (ones_of_lastAddress hend.2) ha
    by_cases hpinch : info.netZero = .available ∧ OpenBlock t q want q.stream
    · refine .pinched ⟨hpinch.1, hend.1, hpinch.2, ⟨_, hfound, hend.2⟩, fun a ha => ?_⟩
      rcases honly a ha with heq | rfl
      · exact .inl heq
      · exact .inr hend.2
    · refine .full fun a ha hallowed => ?_
      rcases honly a ha with rfl | rfl
      · cases hzero : info.netZero with
        | available => exact hpinch ⟨hzero, ha⟩
        | reserved => exact hallowed.first hzero rfl
      · exact hallowed.last hend.1 hend.2
  · rw [finish_ok hmax hstart hlt fun hres heq => hend ⟨hres, heq⟩]
    refine .found _ hfound ⟨fun _ => hfirst, fun hres heq => hend ⟨hres, heq⟩⟩ fun hp => ?_
    rcases hp.only _ hfound with heq | heq
    · exact hfirst heq
    · exact hend ⟨hp.reserved, heq⟩

/-- The blocks that the search can choose from are free. -/
theorem OpenBlock.freeBlock {dir : Directory} (h : WellFormed fam st dir)
    (ha : OpenBlock st.tree q want a) (hlt : q.bits < want) : FreeBlock dir q want a := by
  refine ⟨hlt, ha.inside, ha.start, fun {x e} hx hag => ?_⟩
  rcases h.filing with ⟨r, hfile⟩
  rcases hfile.located hx with ⟨b, hloc⟩
  rw [← hloc.bits]
  exact (ha.isOpen b _ hloc.mem hag).1

/-- The outcome for a length that the family has room for. -/
theorem Valid.searched (h : Valid fam σ)
    (hnat : Natural σ.state.tree fun b a => σ.state.tree.Covers a b)
    (hnet : σ.dir net = some ⟨.net, q⟩)
    (hend : info.netEnd net = addressText fam (lastAddress q.bits q.stream)) (hlt : q.bits < want)
    (hmax : want < fam.bits) (uuid : DbObject) :
    Searched fam info σ.state.tree uuid net q want
      (subnetBlock fam info σ.state uuid net (addressText fam q.stream) want) := by
  rcases h.sound.wf.scan hnat hnet hlt hmax with
    ⟨b, result, p, g, hreach, hok, hscan, hwritten⟩
  have hclear := (h.sound.wf.accepted hnet).2.2
  have hcmd := h.autoNetCmd_eq hnet hlt hmax (toString (want : ℤ)).toList uuid hreach hok
  unfold subnetBlock
  rw [hcmd]
  by_cases hne : result = .noneBest
  · rw [if_neg (not_not_intro hne)]
    exact .full fun a ha _ => hscan.empty hne a ⟨ha.inside, ha.isOpen⟩
  · have hw := hwritten hne
    have hlength : p.octets.length = fam.octets := by
      rw [hw.length]
      exact (h.sound.wf.accepted hnet).1
    have htext : udbRadix16Encode p.octets = addressText fam p.stream := by
      rw [Address.udbRadix16Encode_eq, hlength]
      rfl
    rw [if_pos hne, htext, hend]
    simp only [Except.mapError, bind, Except.bind, startAndBits_eq]
    cases result with
    | noneBest => exact absurd rfl hne
    | zeroBest => exact hscan.searched_first hw hclear hlt hmax uuid
    | otherBest => exact hscan.searched_other hw hclear hlt hmax uuid

end Outcome

/-! ## Every request -/

section Requests

variable {mask : CString} (uuid : DbObject)

lemma makeMask_isOk {len bits : ℤ} (hlen : 0 ≤ len) (hbits : |bits| ≤ 8 * len) :
    ∃ m, makeMask len bits = .ok m := by
  unfold makeMask
  rw [if_neg (by omega), if_neg (by omega)]
  split_ifs
  all_goals exact ⟨_, rfl⟩

lemma subnetMask_isOk (hmax : want < fam.bits) (hmask : mask.length ≤ 2 * fam.octets)
    (netMask : CString) :
    ∃ m, subnetMask fam (unameitAddressMaskBits mask) want netMask = .ok m := by
  have hle := unameitAddressMaskBits_le mask
  rw [fam_bits] at hmax
  have hbits : |if (want : ℤ) ≤ unameitAddressMaskBits mask then unameitAddressMaskBits mask
      else want| ≤ 8 * (fam.octets : ℤ) := by
    rw [abs_le]
    all_goals omega
  rcases makeMask_isOk (Int.natCast_nonneg _) hbits with ⟨m, hm⟩
  unfold subnetMask
  by_cases hnil : netMask = []
  · rw [if_pos hnil, hm]
    exact ⟨m, rfl⟩
  · rw [if_neg hnil]
    exact ⟨netMask, rfl⟩

/-- Lengths that the family has no room for are refused before the search. -/
theorem subnetBlock_range (info : SubnetInfo) (st : State) (net : DbObject) (pstart : CString)
    (hout : netBits < 0 ∨ (fam.bits : ℤ) ≤ netBits) :
    ∃ failure, subnetBlock fam info st uuid net pstart netBits = .error (.udb failure) ∧
      failure ≠ .einetfull uuid fam.netNetofAttribute net := by
  unfold subnetBlock inetAutoNetCmd
  by_cases hneg : netBits < 0
  · rw [if_pos hneg]
    exact ⟨_, rfl, nofun⟩
  · rw [if_neg hneg, if_pos (by omega)]
    exact ⟨_, rfl, nofun⟩

lemma Valid.subnetBlock_full (h : Valid fam σ) (hnet : σ.dir net = some ⟨.net, q⟩)
    (hle : want ≤ q.bits) (hmax : want < fam.bits) (pstart : CString) :
    subnetBlock fam info σ.state uuid net pstart want =
      .error (.udb (.einetfull uuid fam.netNetofAttribute net)) := by
  rcases h.sound.wf.filed hnet with ⟨b, hreach, _⟩
  unfold subnetBlock
  rw [h.autoNetCmd_start hnet hmax _ uuid hreach, if_neg (by omega)]
  rfl

lemma unameitInetAutoNet_eq (hstored : Stored fam info st net q mask) (hpos : 0 < q.bits)
    (netBits : Option ℤ) (netMask : CString) :
    unameitInetAutoNet fam info st uuid net netBits netMask = do
      let want ← requestedBits uuid fam.netBitsAttribute q.bits (unameitAddressMaskBits mask)
        (unameitAddressMaskBits netMask) netBits
      let netMask ← subnetMask fam (unameitAddressMaskBits mask) want netMask
      let (netStart, netEnd) ← subnetBlock fam info st uuid net (addressText fam q.stream) want
      return ⟨netStart, netEnd, want, netMask⟩ := by
  rcases hstored.1 with ⟨type, hinfo⟩
  unfold unameitInetAutoNet
  rw [hinfo]
  dsimp only
  rw [if_neg (by omega)]

lemma requestedBits_error {aname : CString} {pbits mbits : ℤ} {netBits : Option ℤ}
    (h : requestedBits uuid aname pbits pmbits mbits netBits = .error fault) :
    fault = .enull uuid aname := by
  unfold requestedBits at h
  split at h
  · cases h
  · split_ifs at h
    exact (Except.error.inj h).symm

lemma subnetMask_error (h : subnetMask fam pmbits netBits netMask = .error fault) :
    ∃ f, fault = .address f := by
  unfold subnetMask at h
  by_cases hnil : netMask = []
  · rw [if_pos hnil] at h
    cases hm : makeMask fam.octets (if netBits ≤ pmbits then pmbits else netBits) with
    | error f =>
      rw [hm] at h
      exact ⟨f, (Except.error.inj h).symm⟩
    | ok m =>
      rw [hm] at h
      cases h
  · rw [if_neg hnil] at h
    cases h

/-- The length that was asked for, if the procedure gets as far as the search. -/
theorem requested_of_eq (hstored : Stored fam info st net q mask) (hpos : 0 < q.bits)
    {netBits : Option ℤ} {result : Except SubnetFault Subnet}
    (heq : unameitInetAutoNet fam info st uuid net netBits netMask = result)
    (hresult : result = .error (.udb (.einetfull uuid fam.netNetofAttribute net)) ∨
      ∃ subnet, result = .ok subnet) :
    ∃ want : ℕ, want < fam.bits ∧ requestedBits uuid fam.netBitsAttribute q.bits
      (unameitAddressMaskBits mask) (unameitAddressMaskBits netMask) netBits = .ok want := by
  rw [unameitInetAutoNet_eq uuid hstored hpos] at heq
  cases hreq : requestedBits uuid fam.netBitsAttribute q.bits (unameitAddressMaskBits mask)
      (unameitAddressMaskBits netMask) netBits with
  | error fault =>
    rw [hreq, requestedBits_error uuid hreq] at heq
    rcases hresult with rfl | ⟨subnet, rfl⟩
    · cases heq
    · cases heq
  | ok want =>
    by_cases hout : want < 0 ∨ (fam.bits : ℤ) ≤ want
    · rcases subnetBlock_range uuid info st net (addressText fam q.stream) hout with
        ⟨failure, herror, hne⟩
      rw [hreq] at heq
      simp only [bind, Except.bind, herror] at heq
      cases hm : subnetMask fam (unameitAddressMaskBits mask) want netMask with
      | error fault =>
        rcases subnetMask_error hm with ⟨f, rfl⟩
        rw [hm] at heq
        rcases hresult with rfl | ⟨subnet, rfl⟩
        · cases heq
        · cases heq
      | ok m =>
        rw [hm] at heq
        rcases hresult with rfl | ⟨subnet, rfl⟩
        · exact absurd (SubnetFault.udb.inj (Except.error.inj heq)) hne
        · cases heq
    · refine ⟨want.toNat, by omega, ?_⟩
      rw [Int.toNat_of_nonneg (by omega)]

/-- In every run that leaves no unnatural blocks behind, what the procedure returns is a free block
that is not reserved.  It reports a full net only when there is none such, if and only if a free
block that is not reserved can be had among the open ones, and the last block does not hide the
first one. -/
theorem unameitInetAutoNet_exact
    (hrun : Run fam (fun σ op => op.Aligned fam σ ∧ op.KeepsNatural σ) Config.empty σ)
    (hnet : σ.dir net = some ⟨.net, q⟩) (hpos : 0 < q.bits)
    (hstored : Stored fam info σ.state net q mask) (netBits : Option ℤ) (netMask : CString) :
    (∀ subnet, unameitInetAutoNet fam info σ.state uuid net netBits netMask = .ok subnet →
      ∃ (want : ℕ) (a : BitStream), subnet.netBits = want ∧ FreeBlock σ.dir q want a ∧
        Allowed info q want a ∧ subnet.netStart = addressText fam a ∧
        subnet.netEnd = addressText fam (lastAddress want a)) ∧
    (unameitInetAutoNet fam info σ.state uuid net netBits netMask =
        .error (.udb (.einetfull uuid fam.netNetofAttribute net)) →
      ∃ want : ℕ, want < fam.bits ∧ requestedBits uuid fam.netBitsAttribute q.bits
        (unameitAddressMaskBits mask) (unameitAddressMaskBits netMask) netBits = .ok want) ∧
    ∀ want : ℕ, want < fam.bits → requestedBits uuid fam.netBitsAttribute q.bits
        (unameitAddressMaskBits mask) (unameitAddressMaskBits netMask) netBits = .ok want →
      ((unameitInetAutoNet fam info σ.state uuid net netBits netMask =
          .error (.udb (.einetfull uuid fam.netNetofAttribute net)) →
        ¬ ∃ a, FreeBlock σ.dir q want a ∧ Allowed info q want a) ↔
      ((∃ a, FreeBlock σ.dir q want a ∧ Allowed info q want a) →
        (∃ a, OpenBlock σ.state.tree q want a ∧ Allowed info q want a) ∧
          ¬ Pinched info σ.state.tree q want)) := by
  rcases natural_of_run hrun with rfl | ⟨hvalid, hnat⟩
  · cases hnet
  refine ⟨fun subnet hok => ?_, fun hfull => requested_of_eq uuid hstored hpos hfull (.inl rfl),
    fun want hmax hwant => ?_⟩
  · rcases requested_of_eq uuid hstored hpos hok (.inr ⟨_, rfl⟩) with ⟨want, hmax, hwant⟩
    rcases subnetMask_isOk hmax hstored.2.2 netMask with ⟨m, hm⟩
    rw [unameitInetAutoNet_eq uuid hstored hpos, hwant] at hok
    simp only [bind, Except.bind, hm] at hok
    rcases lt_or_ge q.bits want with hlt | hge
    · have hsearched := hvalid.searched hnat hnet hstored.2.1 hlt hmax uuid
      generalize subnetBlock fam info σ.state uuid net (addressText fam q.stream) want = block
        at hsearched hok
      cases hsearched with
      | found a hopen hallowed hfree =>
        obtain rfl := Except.ok.inj hok
        exact ⟨want, a, rfl, hopen.freeBlock hvalid.sound.wf hlt, hallowed, rfl, rfl⟩
      | full hnone => cases hok
      | pinched hp => cases hok
    · rw [hvalid.subnetBlock_full uuid hnet hge hmax] at hok
      cases hok
  · rcases subnetMask_isOk hmax hstored.2.2 netMask with ⟨m, hm⟩
    rw [unameitInetAutoNet_eq uuid hstored hpos, hwant]
    simp only [bind, Except.bind, hm]
    rcases lt_or_ge q.bits want with hlt | hge
    · have hsearched := hvalid.searched hnat hnet hstored.2.1 hlt hmax uuid
      generalize subnetBlock fam info σ.state uuid net (addressText fam q.stream) want = block
        at hsearched ⊢
      cases hsearched with
      | found a hopen hallowed hfree =>
        exact ⟨fun _ _ => ⟨⟨a, hopen, hallowed⟩, hfree⟩, fun _ => nofun⟩
      | full hnone =>
        refine ⟨fun hno hex => absurd hex (hno rfl), fun hcond _ hex => ?_⟩
        rcases (hcond hex).1 with ⟨a, ha, hallowed⟩
        exact hnone a ha hallowed
      | pinched hp => exact ⟨fun hno hex => absurd hex (hno rfl), fun hcond _ hex => (hcond hex).2 hp⟩
    · have hno : ¬ ∃ a, FreeBlock σ.dir q want a ∧ Allowed info q want a := by
        rintro ⟨a, ha, _⟩
        have := ha.strict
        omega
      exact ⟨fun _ hex => absurd hex hno, fun _ _ => hno⟩

/-- Net 1 with prefix 10/4, in which the first and the last subnet are reserved: the net of 6 bits
that is found starts at 18. -/
theorem unameitInetAutoNet_exact_octet : ∃ σ, runOps octetFamily Config.empty
      [.insert 0 (.net ['0', '0'] 0 [] []), .insert 1 (.net ['1', '0'] 4 [] [])] = some σ ∧
    unameitInetAutoNet octetFamily ⟨.reserved, .reserved, fun _ => ['1', 'f']⟩ σ.state 5 1 (some 6)
      [] = .ok ⟨['1', '8'], ['1', 'b'], 6, ['f', 'c']⟩ ∧
    ∃ (want : ℕ) (a : BitStream), (6 : ℤ) = want ∧ FreeBlock σ.dir ⟨4, [0x10]⟩ want a ∧
      ['1', '8'] = addressText octetFamily a := by
  have hrun : (runOps octetFamily Config.empty
      [.insert 0 (.net ['0', '0'] 0 [] []), .insert 1 (.net ['1', '0'] 4 [] [])]).map (fun σ =>
        (σ.dir 1, σ.state.net.info 1, unameitInetAutoNet octetFamily
          ⟨.reserved, .reserved, fun _ => ['1', 'f']⟩ σ.state 5 1 (some 6) [])) =
      some (some ⟨.net, ⟨4, [0x10]⟩⟩, some (.net ['1', '0'] 4 [] []),
        .ok ⟨['1', '8'], ['1', 'b'], 6, ['f', 'c']⟩) := by decide +kernel
  rcases Option.map_eq_some_iff.1 hrun with ⟨σ, hσ, hfields⟩
  simp only [Prod.mk.injEq] at hfields
  rcases hfields with ⟨hdir, hinfo, hok⟩
  have hnets : runOps octetFamily Config.empty
      ([(0, ['0', '0'], 0), (1, ['1', '0'], 4)].map fun n =>
        .insert n.1 (.net n.2.1 n.2.2 [] [])) = some σ := hσ
  rcases (unameitInetAutoNet_exact 5 (run_of_nets hnets) hdir (by decide)
    ⟨⟨[], hinfo⟩, by decide, by decide⟩ (some 6) []).1 _ hok with
    ⟨want, a, hwant, hfree, _, hstart, _⟩
  exact ⟨σ, hσ, hok, want, a, hwant, hfree, hstart⟩

/-- In net 1 only the last subnet is reserved.  It is found for a net of 5 bits, because it needs as
few bits as the first one; that one is free. -/
theorem unameitInetAutoNet_pinched : ∃ σ, runOps octetFamily Config.empty
      [.insert 0 (.net ['0', '0'] 0 [] []), .insert 1 (.net ['1', '0'] 4 [] [])] = some σ ∧
    unameitInetAutoNet octetFamily ⟨.available, .reserved, fun _ => ['1', 'f']⟩ σ.state 5 1 (some 5)
      [] = .error (.udb (.einetfull 5 octetFamily.netNetofAttribute 1)) ∧
    σ.dir 1 = some ⟨.net, ⟨4, [0x10]⟩⟩ ∧
    FreeBlock σ.dir ⟨4, [0x10]⟩ 5 (InetPrefix.stream ⟨4, [0x10]⟩) ∧
    Allowed ⟨.available, .reserved, fun _ => ['1', 'f']⟩ ⟨4, [0x10]⟩ 5
      (InetPrefix.stream ⟨4, [0x10]⟩) := by
  have hrun : (runOps octetFamily Config.empty
      [.insert 0 (.net ['0', '0'] 0 [] []), .insert 1 (.net ['1', '0'] 4 [] [])]).map (fun σ =>
        (σ.dir 0, σ.dir 1, unameitInetAutoNet octetFamily
          ⟨.available, .reserved, fun _ => ['1', 'f']⟩ σ.state 5 1 (some 5) [])) =
      some (some ⟨.net, ⟨0, [0x00]⟩⟩, some ⟨.net, ⟨4, [0x10]⟩⟩,
        .error (.udb (.einetfull 5 octetFamily.netNetofAttribute 1))) := by decide +kernel
  rcases Option.map_eq_some_iff.1 hrun with ⟨σ, hσ, hfields⟩
  simp only [Prod.mk.injEq] at hfields
  rcases hfields with ⟨hzero, hone, hfull⟩
  have hnets : runOps octetFamily Config.empty
      ([(0, ['0', '0'], 0), (1, ['1', '0'], 4)].map fun n =>
        .insert n.1 (.net n.2.1 n.2.2 [] [])) = some σ := hσ
  refine ⟨σ, hσ, hfull, hone, ⟨by decide, fun k _ => rfl, fun k hk => ?_, fun {x e} hx _ => ?_⟩,
    ⟨nofun, fun _ => lastAddress_ne (by decide) (by decide)⟩⟩
  · rcases lt_or_ge k 8 with hlt | hge
    · interval_cases k <;> rfl
    · have hdiv : k / 8 ≠ 0 := by omega
      simp [stream, List.getD, hdiv]
  · -- both nets have fewer bits
    by_cases h0 : x = 0
    · subst h0
      obtain rfl := Option.some.inj (hzero.symm.trans hx)
      decide
    · by_cases h1 : x = 1
      · subst h1
        obtain rfl := Option.some.inj (hone.symm.trans hx)
        decide
      · rw [dir_of_nets hnets (by simp [h0, h1])] at hx
        cases hx

end Requests

end Inet
end Unameit
