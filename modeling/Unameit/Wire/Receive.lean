import Unameit.Wire.Send

/-!
# Wire.Receive — receiving one message

Whatever bytes arrive, and however the stream splits them: if they start with a header that is
accepted, then exactly the header, the data that it announces and the trailer are consumed, the
callback is called once, and `Unameit_Conn_Read` returns the data (`ReceiveState.calls`).  With a MIC
the message counts as genuine if and only if the trailer is an encryption of the digest.
-/

namespace Unameit
namespace Wire

open Option List

variable {ctx : Context} {rest b : Bytes} {n pos' : ℕ} {m m' : Message}

open Message Conn

variable {P : Ciphers} {c c' : Conn} {s : Stream} {events : List Event} {pos : ℕ}

/-! ## Verification -/

def Token.genuine (P : Ciphers) (t : Token) (header data trailer : Bytes) : Bool :=
  P.decrypt t.key (trailer.take desLen) = (t.digest P header data).take desLen ∧
    P.decrypt t.key (trailer.drop desLen) = (t.digest P header data).drop desLen

def Finished (P : Ciphers) (t : Token) (r : Option Token) (header data : Bytes) (m : Message) : Prop :=
  ∃ ctx, m.context .reading = some ctx ∧ ctx.offset = headerLen + data.length ∧ ctx.final = true ∧
    ctx.digest = t.digest P header data ∧ ctx.token = t ∧ m.token .writing = r

structure Verified (P : Ciphers) (t : Token) (r : Option Token) (header data trailer : Bytes)
    (m : Message) : Prop where
  micOk : m.readCrypto.micOk = t.genuine P header data trailer
  reading : m.token .reading =
    some (if t.genuine P header data trailer then t.next P header data else t)
  writing : m.token .writing =
    if t.genuine P header data trailer then t.back P r header data else r

variable {t : Token} {r : Option Token} {header data trailer : Bytes}

lemma verifyMic_spec (herr : c.errno = none) (hstate : c.state = .reading)
    (htoken : ctx.token = t) (hdigest : ctx.digest = t.digest P header data)
    (hr : c.message.token .writing = r) (htrailer : c.message.trailer.mic = trailer) :
    ∃ c', verifyMic P c ctx = .ok c' ∧ Verified P t r header data trailer c'.message := by
  have hkey : ctx.key = t.key := by rw [← htoken]; rfl
  unfold verifyMic
  simp only [htrailer, hkey, hdigest]
  by_cases hfirst : P.decrypt t.key (trailer.take desLen) = (t.digest P header data).take desLen
  · rw [if_neg (not_not.2 hfirst)]
    by_cases hsecond : P.decrypt t.key (trailer.drop desLen) = (t.digest P header data).drop desLen
    · rw [if_neg (not_not.2 hsecond)]
      have hgenuine : t.genuine P header data trailer = true := decide_eq_true ⟨hfirst, hsecond⟩
      have hdigest' : ctx.digest = ctx.token.digest P header data := by rw [hdigest, htoken]
      set d : Conn :=
        { c.setContext ctx .reading with
          message.trailer.mic := P.decrypt t.key (trailer.take desLen) ++
            P.decrypt t.key (trailer.drop desLen)
          message.readCrypto.micOk := true } with hd
      obtain ⟨d', hok, -, hnext, hback, -, hmic⟩ :=
        nextMic_spec (c := d) herr hstate (.inl rfl) hdigest'
      refine ⟨d', hok, hmic.trans hgenuine.symm, ?_, ?_⟩
      · rw [hnext, hgenuine, htoken]
        rfl
      · rw [hgenuine, ← hr, ← htoken]
        exact hback
    · rw [if_pos hsecond]
      have hgenuine : t.genuine P header data trailer = false := decide_eq_false fun h => hsecond h.2
      refine ⟨_, rfl, ?_, ?_, ?_⟩
      · exact hgenuine.symm
      · rw [hgenuine]
        exact congrArg some htoken
      · rw [hgenuine]
        exact hr
  · rw [if_pos hfirst]
    have hgenuine : t.genuine P header data trailer = false := decide_eq_false fun h => hfirst h.1
    refine ⟨_, rfl, ?_, ?_, ?_⟩
    · exact hgenuine.symm
    · rw [hgenuine]
      exact congrArg some htoken
    · rw [hgenuine]
      exact hr

structure Holds (c : Conn) (header data : Bytes) (e : ℕ) : Prop where
  state : c.state = .reading
  errno : c.errno = none
  header : c.message.header.data = header
  complete : c.message.header.offset = headerLen
  length : c.message.length = data.length
  small : data.length < 2 ^ 31
  offset : c.message.offset = e
  le : e ≤ data.length
  data : c.buffer.take e = data.take e

variable {e : ℕ}

lemma updateMicWith_reading (P : Ciphers) (h : Holds c header data e) :
    updateMicWith P c ctx =
      if e < data.length then .ok (c.setContext ((ctx.start header).update c.buffer e) .reading)
      else if c.message.trailer.offset < micLen then
        .ok (c.setContext (((ctx.start header).update c.buffer e).finish P) .reading)
      else verifyMic P c (((ctx.start header).update c.buffer e).finish P) := by
  have hsmall := h.small
  have hle := h.le
  have hstop : micEnd c.message c.state = e := by
    rw [h.state]
    show int32 c.message.offset = e
    rw [h.offset, int32_of_lt (by omega) (by omega)]
  have hmod : (e : ℤ) % 2 ^ 32 = e := by omega
  unfold updateMicWith buffer
  simp only [hstop, hmod, h.header, h.length]
  rw [if_neg fun hc => by have := hc.2.2; rw [h.complete] at this; omega]
  simp only [h.state, Int.ofNat_lt]
  by_cases hlt : e < data.length
  · rw [if_pos hlt, if_pos hlt]
  · rw [if_neg hlt, if_neg hlt, if_neg fun hc => nomatch hc.2]
    exact if_neg (by decide)

/-- The checksum is brought up to what has arrived; with the last byte of the trailer the message is
verified. -/
theorem Holds.updateMic_reading (h : Holds c header data e)
    (hphase : Unstarted t r c.message .reading ∨
      (∃ k ≤ e, Summing t r header data c.message .reading k) ∨
      (e = data.length ∧ Finished P t r header data c.message))
    (htrailer : c.message.trailer.mic = trailer) :
    ∃ c', updateMic P c false = .ok c' ∧
      (e < data.length → Summing t r header data c'.message .reading e) ∧
      (e = data.length → c.message.trailer.offset < micLen → Finished P t r header data c'.message) ∧
      (e = data.length → micLen ≤ c.message.trailer.offset →
        Verified P t r header data trailer c'.message) ∧
      (e < data.length ∨ c.message.trailer.offset < micLen →
        c'.message.trailer = c.message.trailer) := by
  have hdir : c.state = .reading ∨ c.state = .writing := .inl h.state
  have hsmall : e < 2 ^ 31 := lt_of_le_of_lt h.le h.small
  -- the context with the checksum up to `e`, and after `MD5Final`
  have hctx : ∃ ctx, c.message.context .reading = some ctx ∧ c.message.token .writing = r ∧
      (e < data.length → ((ctx.start header).update c.buffer e).Sums t header data e) ∧
      (e = data.length → ∃ ctx', ((ctx.start header).update c.buffer e).finish P = ctx' ∧
        ctx'.offset = headerLen + data.length ∧ ctx'.final = true ∧
        ctx'.digest = t.digest P header data ∧ ctx'.token = t) := by
    have hsums : ∀ {ctx : Context}, ctx.Sums t header data e → e = data.length →
        ∃ ctx', ctx.finish P = ctx' ∧ ctx'.offset = headerLen + data.length ∧ ctx'.final = true ∧
          ctx'.digest = t.digest P header data ∧ ctx'.token = t := by
      intro ctx hs heq
      subst heq
      exact ⟨_, hs.finish, hs.offset, rfl, rfl, hs.token⟩
    rcases hphase with ⟨ctx, hctx, hoff, htoken, hr⟩ | ⟨k, hk, ctx, hctx, hs, hr⟩ |
      ⟨heq, ctx, hctx, hoff, hfinal, hdigest, htoken, hr⟩
    · have hs : ((ctx.start header).update c.buffer e).Sums t header data e :=
        (Context.start_sums hoff htoken).update (Nat.zero_le _) hsmall h.data
      exact ⟨ctx, hctx, hr, fun _ => hs, hsums hs⟩
    · have hs' : ((ctx.start header).update c.buffer e).Sums t header data e := by
        rw [hs.start]
        exact hs.update hk hsmall h.data
      exact ⟨ctx, hctx, hr, fun _ => hs', hsums hs'⟩
    · -- nothing is left to be checksummed
      have hkeep : ((ctx.start header).update c.buffer e).finish P = ctx := by
        have hheader : headerLen = 16 := rfl
        have hstart : ctx.start header = ctx := if_neg (by omega)
        have hupdate : ctx.update c.buffer e = ctx := by
          unfold Context.update
          rw [if_neg (by rw [int32_of_lt (by omega) (by omega)]; omega)]
        rw [hstart, hupdate]
        exact if_pos hfinal
      exact ⟨ctx, hctx, hr, fun hlt => by omega,
        fun _ => ⟨ctx, hkeep, hoff, hfinal, hdigest, htoken⟩⟩
  obtain ⟨ctx, hctx, hr, hpart, hfull⟩ := hctx
  rw [updateMic_eq hdir (by rw [h.state]; exact hctx), updateMicWith_reading P h]
  by_cases hlt : e < data.length
  · rw [if_pos hlt]
    exact ⟨_, rfl, fun _ => ⟨_, rfl, hpart hlt, hr⟩, fun heq => by omega, fun heq => by omega,
      fun _ => rfl⟩
  · obtain ⟨ctx', heq', hoff, hfinal, hdigest, htoken⟩ := hfull (by have := h.le; omega)
    rw [if_neg hlt, heq']
    by_cases hwait : c.message.trailer.offset < micLen
    · rw [if_pos hwait]
      exact ⟨_, rfl, fun hlt' => by omega,
        fun _ _ => ⟨ctx', rfl, hoff, hfinal, hdigest, htoken, hr⟩, fun _ hge => by omega,
        fun _ => rfl⟩
    · rw [if_neg hwait]
      obtain ⟨d, hok, hver⟩ := verifyMic_spec h.errno h.state htoken hdigest hr htrailer
      exact ⟨d, hok, fun hlt' => by omega, fun _ hlt' => by omega, fun _ _ => hver,
        fun hor => by omega⟩

/-! ## One message -/

structure Frame (t : Option Token) (maxlen : ℕ) (header data trailer : Bytes) : Prop where
  length_header : header.length = headerLen
  magic : ntoh header = connMagic
  datalen : ntoh (header.drop 12) = data.length
  small : data.length < 2 ^ 31
  max : maxlen = 0 ∨ data.length ≤ maxlen
  length_trailer : trailer.length = if t.isSome then micLen else 0

/-- A message that is received, and what the connection keeps meanwhile. -/
structure Incoming where
  header : Bytes
  data : Bytes
  trailer : Bytes
  maxlen : ℕ
  log : List ConnState

namespace Incoming

def bytes (x : Incoming) : Bytes :=
  x.header ++ (x.data ++ x.trailer)

abbrev Framed (x : Incoming) (t : Option Token) : Prop :=
  Frame t x.maxlen x.header x.data x.trailer

lemma length_bytes {x : Incoming} {t : Option Token} (h : x.Framed t) :
    x.bytes.length = headerLen + (x.data.length + x.trailer.length) := by
  unfold bytes
  rw [length_append, length_append, h.length_header]

end Incoming

def Followed (P : Ciphers) (t r : Option Token) (x : Incoming) (m : Message) (pos : ℕ) : Prop :=
  match t with
  | none => m.context .reading = none ∧ m.token .writing = r
  | some t =>
    (pos < headerLen → Unstarted t r m .reading) ∧
    (headerLen ≤ pos → pos < headerLen + x.data.length →
      Summing t r x.header x.data m .reading (pos - headerLen)) ∧
    (headerLen + x.data.length ≤ pos → pos < headerLen + x.data.length + micLen →
      Finished P t r x.header x.data m) ∧
    (headerLen + x.data.length + micLen ≤ pos → Verified P t r x.header x.data x.trailer m)

structure Arrived (x : Incoming) (c : Conn) (pos : ℕ) : Prop
    extends Busy .reading x.maxlen x.log c where
  at' : AtPos c.message c.state pos
  fits : Fits c
  le : headerLen ≤ pos
  length : c.message.length = x.data.length
  head : c.message.header.data = x.header
  image : pos < x.bytes.length → c.image.take pos = x.bytes.take pos
  payload : headerLen + x.data.length ≤ pos → c.buffer.take x.data.length = x.data
  nul : c.buffer.drop x.data.length = [0]

inductive Receiving (P : Ciphers) (t r : Option Token) (x : Incoming) (c : Conn) (pos : ℕ) : Prop
  | header (busy : Busy .reading x.maxlen x.log c) (at' : AtPos c.message c.state pos)
    (fits : Fits c) (lt : pos < headerLen)
    (taken : c.message.header.data.take pos = x.header.take pos)
    (followed : Followed P t r x c.message pos)
  | body (arrived : Arrived x c pos) (followed : Followed P t r x c.message pos)

variable {t : Option Token} {x : Incoming}

lemma Arrived.of_image (hfits : Fits c) (hle : headerLen ≤ pos)
    (hlength : c.message.length = x.data.length) (hheader : x.header.length = headerLen)
    (himage : c.image.take pos = x.bytes.take pos) :
    c.message.header.data = x.header ∧
      c.buffer.take (min (pos - headerLen) x.data.length) =
        x.data.take (min (pos - headerLen) x.data.length) ∧
      (c.message.hasMic c.state = true → headerLen + x.data.length + micLen ≤ pos →
        x.trailer.length = micLen → c.message.trailer.mic = x.trailer) := by
  have hsplit : ∀ {a b u v : Bytes} {k : ℕ}, a.length = b.length → a.length ≤ k →
      (a ++ u).take k = (b ++ v).take k → a = b ∧ u.take (k - a.length) = v.take (k - a.length) := by
    intro a b u v k hab hk heq
    have ha : a.take k = a := take_of_length_le hk
    have hb : b.take k = b := take_of_length_le (by omega)
    rw [take_append, take_append, ha, hb, ← hab] at heq
    exact append_inj heq hab
  unfold Conn.image at himage
  rw [hlength] at himage
  have hlen := hfits.length_data
  rw [hlength] at hlen
  obtain ⟨hh, hrest⟩ := hsplit (by rw [hfits.header, hheader]) (by rw [hfits.header]; exact hle) himage
  rw [hfits.header] at hrest
  refine ⟨hh, ?_, fun hmic hge htrailer => ?_⟩
  · have hk : min (pos - headerLen) x.data.length ≤ pos - headerLen := min_le_left _ _
    have hk' : min (pos - headerLen) x.data.length ≤ x.data.length := min_le_right _ _
    have hsame := congrArg (take (min (pos - headerLen) x.data.length)) hrest
    rwa [take_take, take_take, min_eq_left hk,
      take_append_of_le_length (by rw [hlen]; exact hk'), take_append_of_le_length hk',
      take_take, min_eq_left hk'] at hsame
  · obtain ⟨-, htail⟩ := hsplit hlen (by omega) hrest
    have hmicLen := hfits.trailer
    rw [if_pos hmic, take_of_length_le (by omega), take_of_length_le (by omega)] at htail
    exact htail

lemma Arrived.of_keeps (h : Arrived x c pos) (hk : Keeps c c')
    (hmic : c'.message.hasMic c.state = c.message.hasMic c.state)
    (hsame : pos < x.bytes.length → c'.message.trailer = c.message.trailer) : Arrived x c' pos := by
  have hheader : c'.message.header = c.message.header := hk.same (·.message.header)
  have hlength : c'.message.length = c.message.length := hk.same (·.message.length)
  refine ⟨h.toBusy.of_keeps hk, h.at'.of_keeps hk hmic, h.fits.of_keeps hk, h.le,
    hlength.trans h.length, ?_, fun hlt => ?_, ?_, ?_⟩
  · rw [hheader]
    exact h.head
  · have himage : c'.image = c.image := by
      unfold Conn.image
      rw [hk.state, hmic, hk.buffer, hlength, hheader, hsame hlt]
    rw [himage]
    exact h.image hlt
  · rw [hk.buffer]
    exact h.payload
  · rw [hk.buffer]
    exact h.nul

def Behind (P : Ciphers) (t r : Option Token) (x : Incoming) (m : Message) (pos : ℕ) : Prop :=
  match t with
  | none => m.context .reading = none ∧ m.token .writing = r
  | some t =>
    Unstarted t r m .reading ∨
    (∃ k ≤ min (pos - headerLen) x.data.length, Summing t r x.header x.data m .reading k) ∨
    (headerLen + x.data.length ≤ pos ∧ Finished P t r x.header x.data m)

lemma Arrived.update (hframe : x.Framed t) (h : Arrived x c pos) (hpos : pos ≤ x.bytes.length)
    (himage : c.image.take pos = x.bytes.take pos) (hbehind : Behind P t r x c.message pos) :
    ∃ d, maybeUpdateMic P c false = .ok d ∧ Arrived x d pos ∧ Followed P t r x d.message pos := by
  have hmic := hasMic_eq (c := c) (.inl h.state)
  rw [h.state] at hmic
  have htotal := Incoming.length_bytes hframe
  cases t with
  | none =>
    have hoff : c.message.hasMic c.state = false := by
      rw [h.state, hmic, hbehind.1]
      rfl
    refine ⟨c, ?_, h, hbehind⟩
    unfold maybeUpdateMic
    rw [hoff]
    rfl
  | some t =>
    have hon : c.message.hasMic c.state = true := by
      rw [h.state, hmic]
      rcases hbehind with ⟨ctx, hctx, -⟩ | ⟨k, -, ctx, hctx, -⟩ | ⟨-, ctx, hctx, -⟩
      · rw [hctx]
        rfl
      · rw [hctx]
        rfl
      · rw [hctx]
        rfl
    have htrailer : x.trailer.length = micLen := hframe.length_trailer
    obtain ⟨-, hdata, hT⟩ := Arrived.of_image h.fits h.le h.length hframe.length_header himage
    have hoffset : c.message.offset = min (pos - headerLen) x.data.length := by
      rw [h.at'.offset, h.length]
    have hholds : Holds c x.header x.data (min (pos - headerLen) x.data.length) :=
      ⟨h.state, h.errno, h.head, by rw [h.at'.header]; exact min_eq_right h.le, h.length,
        hframe.small, hoffset, min_le_right _ _, hdata⟩
    have hle := h.le
    have hphase := hbehind.imp_right (Or.imp_right (And.imp_left fun hge =>
      (by omega : min (pos - headerLen) x.data.length = x.data.length)))
    have hoffset' : headerLen + x.data.length ≤ pos →
        c.message.trailer.offset = pos - headerLen - x.data.length := by
      intro hge
      have := h.at'.trailer h.le hon fun hlt => by rw [h.length] at hlt; omega
      rw [this, h.length]
    obtain ⟨d, hok, hsum, hfin, hver, hkeep⟩ :=
      hholds.updateMic_reading hphase (rfl : c.message.trailer.mic = _)
    have hmaybe : maybeUpdateMic P c false = .ok d := by
      unfold maybeUpdateMic
      rw [hon]
      exact hok
    obtain ⟨hkeeps, hsame⟩ := maybeUpdateMic_keeps hmaybe
    refine ⟨d, hmaybe, h.of_keeps hkeeps hsame fun hlt => hkeep ?_, ?_⟩
    · by_cases hge : headerLen + x.data.length ≤ pos
      · exact .inr (by rw [hoffset' hge]; omega)
      · exact .inl (by omega)
    · refine ⟨fun hlt => by omega, fun _ hlt => ?_, fun hge hlt => ?_, fun hge => ?_⟩
      · have hmin : min (pos - headerLen) x.data.length = pos - headerLen := by omega
        rw [hmin] at hsum
        exact hsum (by omega)
      · exact hfin (by omega) (by rw [hoffset' hge]; omega)
      · have hmicEq := hT hon hge htrailer
        have := hver (by omega) (by rw [hoffset' (by omega)]; omega)
        rwa [hmicEq] at this

/-! ## Rounds -/

def Stream.skip (s : Stream) (n : ℕ) : Stream :=
  { s with input := s.input.drop n }

lemma prefix_take {input a : Bytes} (h : input <+: a ++ rest) (hn : n ≤ input.length)
    (hle : n ≤ a.length) : input.take n = a.take n ∧ input.drop n <+: a.drop n ++ rest := by
  obtain ⟨future, hfuture⟩ := h
  constructor
  · have htake := congrArg (take n) hfuture
    rwa [take_append_of_le_length hn, take_append_of_le_length hle] at htake
  · have hdrop := congrArg (drop n) hfuture
    rw [drop_append_of_le_length hn, drop_append_of_le_length hle] at hdrop
    exact ⟨future, hdrop⟩

lemma Begun.followed (h : Begun t r c.message .reading) : Followed P t r x c.message 0 := by
  cases t with
  | none => exact h
  | some t =>
    exact ⟨fun _ => h, fun hle => absurd hle (by decide), fun hle => absurd hle (by simp [headerLen]),
      fun hle => absurd hle (by simp [headerLen])⟩

lemma Followed.isSome (h : Followed P t r x c.message pos) :
    (c.message.context .reading).isSome = t.isSome := by
  cases t with
  | none => rw [h.1, isSome_none, isSome_none]
  | some t =>
    by_cases hhead : pos < headerLen
    · obtain ⟨ctx, hctx, -⟩ := h.1 hhead
      rw [hctx, isSome_some, isSome_some]
    by_cases hdata : pos < headerLen + x.data.length
    · obtain ⟨ctx, hctx, -⟩ := h.2.1 (by omega) hdata
      rw [hctx, isSome_some, isSome_some]
    by_cases hmic : pos < headerLen + x.data.length + micLen
    · obtain ⟨ctx, hctx, -⟩ := h.2.2.1 (by omega) hmic
      rw [hctx, isSome_some, isSome_some]
    · have htoken := congrArg isSome (h.2.2.2 (by omega)).reading
      unfold token at htoken
      rwa [isSome_map] at htoken

lemma Arrived.total (hframe : x.Framed t) (h : Arrived x c pos)
    (hfollowed : Followed P t r x c.message pos) : c.message.total c.state = x.bytes.length := by
  have hmic := hasMic_eq (c := c) (.inl h.state)
  unfold Message.total
  rw [hmic, h.state, hfollowed.isSome, h.length, Incoming.length_bytes hframe,
    hframe.length_trailer, add_assoc]

/-- The header has been accepted. -/
theorem arrived_opened (hframe : x.Framed t) (hbusy : Busy .reading x.maxlen x.log c)
    (hfits : Fits c) (hhead : c.message.header.data = x.header) :
    Arrived x c.opened headerLen ∧
      c.opened.image.take headerLen = x.bytes.take headerLen ∧
      ∀ dir, c.opened.message.context dir = c.message.context dir := by
  have hdatalen : c.message.header.datalen = x.data.length := by
    unfold Header.datalen
    rw [hhead]
    exact hframe.datalen
  have hacc : accepts { c.message with header.offset := headerLen } := by
    refine ⟨?_, ?_⟩
    · show ntoh c.message.header.data = _
      rw [hhead]
      exact hframe.magic
    · show c.message.maxlen = 0 ∨ c.message.header.datalen ≤ c.message.maxlen
      rw [hbusy.maxlen, hdatalen]
      exact hframe.max
  have hsmall := hframe.small
  have hmod : (c.message.header.datalen + 1) % 2 ^ 32 = x.data.length + 1 := by
    rw [hdatalen]
    exact Nat.mod_eq_of_lt (by omega)
  rcases allocData_cases { c with message.header.offset := headerLen } with ⟨hrej, -⟩ | ⟨-, heq⟩
  · exact absurd hacc hrej
  have hbuffer : (allocData { c with message.header.offset := headerLen }).buffer =
      replicate (x.data.length + 1) 0 := by
    rw [← hmod]
    exact buffer_allocData hacc
  unfold opened
  generalize allocData { c with message.header.offset := headerLen } = d at *
  have hbusy' : Busy .reading x.maxlen x.log d := by
    rw [heq]
    exact ⟨hbusy.state, hbusy.errno, hbusy.callback, hbusy.callbacks, hbusy.maxlen⟩
  have hlength : d.message.length = x.data.length := by rw [heq]; exact hdatalen
  have hhead' : d.message.header.data = x.header := by rw [heq]; exact hhead
  have hdone : d.message.header.offset = headerLen := by rw [heq]
  have hfits' : Fits d := by
    refine ⟨?_, ?_, ?_, fun _ => ?_⟩
    · rw [hhead']
      exact hframe.length_header
    · rw [heq]
      exact hfits.trailer
    · omega
    · exact le_of_eq (by rw [hlength, hbuffer, length_replicate, if_pos hbusy'.state])
  have hcore : (iovInitData d.message .reading).core = d.message.core := core_iovInitData _ _
  have hhead'' : (iovInitData d.message .reading).header.data = x.header :=
    (same_of_core hcore (·.header.data)).trans hhead'
  have himage : ({ d with message := iovInitData d.message .reading } : Conn).image.take headerLen =
      x.bytes.take headerLen := by
    unfold image Incoming.bytes
    have hge : headerLen ≤ x.header.length := le_of_eq hframe.length_header.symm
    rw [hhead'', take_append_of_le_length hge, take_append_of_le_length hge]
  refine ⟨⟨hbusy'.of_core hcore, ?_, hfits'.of_core hcore, le_refl _,
    (length_of_core hcore).trans hlength, hhead'', fun _ => himage, fun hle => ?_, ?_⟩,
    himage, ?_⟩
  · rw [hbusy'.state]
    exact atPos_iovInitData hdone
  · have hnil : x.data = [] := eq_nil_of_length_eq_zero (by omega)
    rw [hnil]
    rfl
  · rw [(buffer_of_core (c := d) hcore).trans hbuffer, drop_replicate, Nat.add_sub_cancel_left]
    rfl
  · intro dir
    rw [context_of_core hcore, heq]
    rfl

lemma Arrived.hand (h : Arrived x c pos) : Arrived x c.hand pos :=
  ⟨⟨h.state, h.errno, h.callback, h.callbacks, h.maxlen⟩, h.at',
    ⟨h.fits.header, h.fits.trailer, h.fits.length_lt, h.fits.data⟩, h.le, h.length, h.head, h.image,
    h.payload, h.nul⟩

/-- Bytes are read into the data or the trailer, and the window moves on. -/
theorem Arrived.land (hframe : x.Framed t) (h : Arrived x c pos) (hlt : pos < x.bytes.length)
    (hb : b = (x.bytes.drop pos).take n) (hlen : b.length = n) (hn : n ≤ avail c.message.vectors) :
    ∃ m', slideWindow (c.lay c.message.vectors b) n =
        .ok { c.lay c.message.vectors b with message := m' } ∧
      Arrived x { c.lay c.message.vectors b with message := m' } (pos + n) ∧
      ({ c.lay c.message.vectors b with message := m' } : Conn).image.take (pos + n) =
        x.bytes.take (pos + n) ∧
      ∀ dir, m'.context dir = c.message.context dir := by
  have hblank := blank_lay c c.message.vectors b
  have htiles := h.at'.tiles
  have hposle : pos ≤ c.image.length := by
    rw [h.fits.length_image]
    exact h.at'.le
  have hfits := h.fits.of_blank hblank
  have hat := h.at'.of_blank hblank
  have himage : (c.lay c.message.vectors b).image = overwrite c.image pos b :=
    htiles.image_lay h.fits hposle (by omega)
  have hroom : pos + b.length ≤ c.image.length := by
    have := htiles.le h.fits hposle
    omega
  have htake : (c.lay c.message.vectors b).image.take (pos + n) = x.bytes.take (pos + n) := by
    rw [himage, ← hlen, take_overwrite hroom, h.image hlt, hlen, take_add, hb]
  have hnul := htiles.drop_lay (b := b) h.fits
  generalize c.lay c.message.vectors b = d at *
  have hbusy : Busy .reading x.maxlen x.log d :=
    ⟨(same_of_blank hblank state).trans h.state,
      (same_of_blank hblank errno).trans h.errno,
      (same_of_blank hblank callback).trans h.callback,
      (same_of_blank hblank callbacks).trans h.callbacks,
      (same_of_blank hblank (·.message.maxlen)).trans h.maxlen⟩
  have hlength : d.message.length = x.data.length :=
    (same_of_blank hblank (·.message.length)).trans h.length
  have hctx : ∀ dir, d.message.context dir = c.message.context dir := by
    intro dir
    exact same_of_blank hblank (·.message.context dir)
  have hvectors : d.message.vectors = c.message.vectors := same_of_blank hblank (·.message.vectors)
  have hsmall : d.message.length < 2 ^ 31 := by
    rw [hlength]
    exact hframe.small
  have hle := h.le
  have hn' : n ≤ avail d.message.vectors := by simpa only [hvectors] using hn
  rcases slideWindow_spec hat hfits.length_lt hn'
      (fun _ hpos => absurd hpos (by omega)) with ⟨-, hbig⟩ | ⟨m', pos', hslide, hcore, hat', hp⟩
  · exact absurd hbig (not_le.2 hsmall)
  have hpos' := hp hsmall
  subst hpos'
  have hfits' := hfits.of_core hcore
  have hlength' : m'.length = x.data.length := (length_of_core hcore).trans hlength
  have himage' : ({ d with message := m' } : Conn).image = d.image := by
    have hheader : m'.header.data = d.message.header.data :=
      same_of_core hcore (·.header.data)
    have htrailer : m'.trailer.mic = d.message.trailer.mic :=
      Message.same_of_core hcore (·.trailer.mic)
    have hmic : m'.hasMic d.state = d.message.hasMic d.state := Message.hasMic_of_core hcore
    unfold Conn.image
    rw [buffer_of_core hcore, hheader, htrailer, hmic, hlength', hlength]
  have htake' : ({ d with message := m' } : Conn).image.take (pos + n) = x.bytes.take (pos + n) := by
    rw [himage']
    exact htake
  obtain ⟨hhead, hdata, -⟩ := Arrived.of_image hfits' (show headerLen ≤ pos + n by omega) hlength'
    hframe.length_header htake'
  refine ⟨m', hslide, ⟨hbusy.of_core hcore, hat', hfits', by omega, hlength', hhead, fun _ => htake',
    fun hge => ?_, ?_⟩, htake', fun dir => ?_⟩
  · rwa [min_eq_right (by omega), take_length] at hdata
  · rw [buffer_of_core hcore, ← h.length, hnul, h.length]
    exact h.nul
  · rw [context_of_core hcore, hctx]

/-- What has been summed up so far is not lost when more is read. -/
theorem Followed.behind (h : Followed P t r x m pos) (hctx : ∀ dir, m'.context dir = m.context dir)
    (hlt : pos < headerLen + (x.data.length + x.trailer.length))
    (htrailer : x.trailer.length = if t.isSome then micLen else 0) (hle : pos ≤ pos') :
    Behind P t r x m' pos' := by
  have htoken : ∀ dir, m'.token dir = m.token dir := fun dir =>
    congrArg (Option.map Context.token) (hctx dir)
  cases t with
  | none => exact ⟨(hctx _).trans h.1, (htoken _).trans h.2⟩
  | some t =>
    have hmicLen : x.trailer.length = micLen := htrailer
    by_cases hhead : pos < headerLen
    · obtain ⟨ctx, hc, hoff, htok, hr⟩ := h.1 hhead
      exact .inl ⟨ctx, (hctx _).trans hc, hoff, htok, (htoken _).trans hr⟩
    by_cases hdata : pos < headerLen + x.data.length
    · obtain ⟨ctx, hc, hsums, hr⟩ := h.2.1 (by omega) hdata
      exact .inr (.inl ⟨_, by omega, ctx, (hctx _).trans hc, hsums, (htoken _).trans hr⟩)
    · obtain ⟨ctx, hc, hoff, hfinal, hdigest, htok, hr⟩ := h.2.2.1 (by omega) (by omega)
      exact .inr (.inr ⟨by omega, ctx, (hctx _).trans hc, hoff, hfinal, hdigest, htok,
        (htoken _).trans hr⟩)

lemma Followed.of_header (h : Followed P t r x m pos) (hpos : pos < headerLen)
    (hpos' : pos' < headerLen) (hctx : ∀ dir, m'.context dir = m.context dir) :
    Followed P t r x m' pos' := by
  have htoken : ∀ dir, m'.token dir = m.token dir := fun dir =>
    congrArg (Option.map Context.token) (hctx dir)
  cases t with
  | none => exact ⟨(hctx _).trans h.1, (htoken _).trans h.2⟩
  | some t =>
    obtain ⟨ctx, hc, hoff, htok, hr⟩ := h.1 hpos
    exact ⟨fun _ => ⟨ctx, (hctx _).trans hc, hoff, htok, (htoken _).trans hr⟩,
      fun hle => absurd hle (by omega), fun hle => absurd hle (by omega),
      fun hle => absurd hle (by omega)⟩

structure RoundReads (P : Ciphers) (t r : Option Token) (x : Incoming) (c : Conn) (s : Stream)
    (events : List Event) (pos : ℕ) (d : Conn) (n : ℕ) : Prop where
  receiving : Receiving P t r x d (pos + n)
  le : pos + n ≤ x.bytes.length
  input : n ≤ s.input.length
  moves : n = 0 → ¬ (Moves events ∧ s.input ≠ [])
  round : (pos + n < x.bytes.length ∧ progressRound P c s events = .ok (.returned d (s.skip n))) ∨
    ∃ rest ⊆ events, progressRound P c s events = .ok (.next d (s.skip n) rest)

lemma AtPos.nvec_ne_zero (h : AtPos c.message c.state pos) (hpos : pos < headerLen) :
    c.message.nvec ≠ 0 := by
  intro hzero
  have := h.nvec_eq_zero_iff.1 hzero
  unfold total at this
  omega

section Rounds

variable (hframe : x.Framed t) {rest : Bytes} (hinput : s.input <+: x.bytes.drop pos ++ rest)
  (hopen : s.closed = false) (hfail : .fail ∉ events)

include hframe hinput hopen hfail

lemma round_header (hbusy : Busy .reading x.maxlen x.log c) (hat : AtPos c.message c.state pos)
    (hfits : Fits c) (hpos : pos < headerLen)
    (htaken : c.message.header.data.take pos = x.header.take pos)
    (hfollowed : Followed P t r x c.message pos) :
    ∃ d n, RoundReads P t r x c s events pos d n := by
  have hheader := hframe.length_header
  have htotal := Incoming.length_bytes hframe
  have hround : ReadRound P c.hand s events (progressRound P c s events) :=
    progressRound_reading hbusy.state hat (hat.nvec_ne_zero hpos)
  have hfits' : Fits c.hand := ⟨hfits.header, hfits.trailer, hfits.length_lt, hfits.data⟩
  have hbusy' : Busy .reading x.maxlen x.log c.hand :=
    ⟨hbusy.state, hbusy.errno, hbusy.callback, hbusy.callbacks, hbusy.maxlen⟩
  generalize hx : progressRound P c s events = y at hround
  cases hround with
  | blocked hstuck =>
    refine ⟨c.hand, 0, ?_, by omega, Nat.zero_le _, fun _ => hstuck, .inl ⟨by omega, hx⟩⟩
    exact .header hbusy' hat hfits' hpos htaken hfollowed
  | failed hfail' => exact absurd hfail' hfail
  | ended _ hclosed => exact absurd (hopen.symm.trans hclosed) (by decide)
  | @got rest' n hrest hn hle hlen =>
    have hsum : pos + n ≤ headerLen := by
      have hvec := hat.vectors_header hpos
      rw [hbusy.state, if_neg (by decide)] at hvec
      have hle' : n ≤ avail c.message.vectors := hle
      have hnil : avail [] = 0 := rfl
      rw [hvec, avail_cons] at hle'
      simp only at hle'
      omega
    have hbytes : s.input.take n = (x.header.drop pos).take n := by
      rw [(prefix_take hinput hlen (by rw [length_drop]; omega)).1]
      unfold Incoming.bytes
      rw [drop_append_of_le_length (by omega),
        take_append_of_le_length (by rw [length_drop]; omega)]
    have hblen : (s.input.take n).length = n := by
      rw [length_take]
      omega
    have hroom : pos + (s.input.take n).length ≤ c.hand.message.header.data.length := by
      rw [hblen]
      exact le_trans hsum (le_of_eq hfits.header.symm)
    have hlay : c.hand.lay c.hand.message.vectors (s.input.take n) =
        { c.hand with
          message.header.data := overwrite c.message.header.data pos (s.input.take n) } :=
      AtPos.lay_header (c := c.hand) hat hbusy.state hpos (by omega)
    have htake : (overwrite c.message.header.data pos (s.input.take n)).take (pos + n) =
        x.header.take (pos + n) := by
      have := take_overwrite hroom
      rw [hblen] at this
      have hsplit : x.header.take (pos + n) = x.header.take pos ++ (x.header.drop pos).take n :=
        take_add
      rw [hsplit, ← hbytes, ← htaken]
      exact this
    have hblank := blank_lay c.hand c.hand.message.vectors (s.input.take n)
    have hat' := AtPos.of_blank (c := c.hand) hblank hat
    have hfits'' := hfits'.of_blank hblank
    rw [hlay] at hat' hfits'' hx
    set d : Conn :=
      { c.hand with
        message.header.data := overwrite c.message.header.data pos (s.input.take n) } with hd
    have hbusy'' : Busy .reading x.maxlen x.log d :=
      ⟨hbusy.state, hbusy.errno, hbusy.callback, hbusy.callbacks, hbusy.maxlen⟩
    by_cases hpart : pos + n < headerLen
    · -- the header is still incomplete, and the function returns
      obtain ⟨m', hslide, hcore, hat''⟩ := slideWindow_header hat' hpart
      have hoff : m'.header.offset < headerLen := by
        rw [hat''.header]
        omega
      have hhead : m'.header.data = d.message.header.data :=
        same_of_core hcore (·.header.data)
      rw [afterIo_of_pos hn, hslide] at hx
      simp only [Except.bind, hbusy''.state, if_true, hoff] at hx
      refine ⟨{ d with message := m' }, n, ?_, by omega, hlen, fun hzero => by omega,
        .inl ⟨by omega, ?_⟩⟩
      · refine .header (hbusy''.of_core hcore) hat'' (hfits''.of_core hcore) hpart ?_ ?_
        · rw [hhead]
          exact htake
        · exact hfollowed.of_header hpos hpart fun dir => context_of_core hcore dir
      · rw [hx, ← hbusy''.state]
        rfl
    · -- the header is complete
      have heq : pos + n = headerLen := by omega
      have hhead : d.message.header.data = x.header := by
        rw [heq] at htake
        have hlen' : (overwrite c.message.header.data pos (s.input.take n)).length = headerLen := by
          rw [length_overwrite]
          exact hfits.header
        rwa [take_of_length_le (le_of_eq hlen'),
          take_of_length_le (le_of_eq hheader)] at htake
      obtain ⟨harrived, himage, hctx⟩ := arrived_opened hframe hbusy'' hfits'' hhead
      have hoff : headerLen ≤ d.opened.message.header.offset := by
        rw [harrived.at'.header]
        omega
      have hbehind : Behind P t r x d.opened.message headerLen :=
        hfollowed.behind hctx (by omega) hframe.length_trailer (le_of_lt hpos)
      obtain ⟨e, hmaybe, he, hfol⟩ := harrived.update hframe (by omega) himage hbehind
      rw [afterIo_reading hn (slideWindow_read hat' hbusy''.state hpos heq) harrived.state hoff hmaybe]
        at hx
      refine ⟨e, n, ?_, by omega, hlen, fun hzero => by omega, .inr ⟨rest', hrest, hx⟩⟩
      rw [heq]
      exact .body he hfol

lemma round_body (h : Arrived x c pos) (hfollowed : Followed P t r x c.message pos)
    (hlt : pos < x.bytes.length) : ∃ d n, RoundReads P t r x c s events pos d n := by
  have htotal := h.total hframe hfollowed
  have hne : c.message.nvec ≠ 0 := by
    intro hzero
    have := h.at'.nvec_eq_zero_iff.1 hzero
    omega
  have hround : ReadRound P c.hand s events (progressRound P c s events) :=
    progressRound_reading h.state h.at' hne
  generalize hx : progressRound P c s events = y at hround
  cases hround with
  | blocked hstuck =>
    exact ⟨c.hand, 0, .body h.hand hfollowed, by omega, Nat.zero_le _, fun _ => hstuck,
      .inl ⟨hlt, hx⟩⟩
  | failed hfail' => exact absurd hfail' hfail
  | ended _ hclosed => exact absurd (hopen.symm.trans hclosed) (by decide)
  | @got rest' n hrest hn hle hlen =>
    have hsum : pos + n ≤ x.bytes.length := by
      have hall := h.at'.tiles.le h.fits (by rw [h.fits.length_image]; exact h.at'.le)
      rw [h.fits.length_image] at hall
      have hle' : n ≤ avail c.message.vectors := hle
      omega
    have hbytes := (prefix_take hinput hlen (by rw [length_drop]; omega)).1
    obtain ⟨m', hslide, harrived, himage, hctx⟩ := h.hand.land hframe hlt hbytes
      (by rw [length_take]; omega) hle
    have hoff : headerLen ≤ m'.header.offset := by
      have := harrived.at'.header
      have hle' := h.le
      simp only at this
      omega
    have hbehind : Behind P t r x m' (pos + n) :=
      hfollowed.behind hctx (by rwa [Incoming.length_bytes hframe] at hlt) hframe.length_trailer
        (Nat.le_add_right pos n)
    obtain ⟨d, hmaybe, hd, hfol⟩ := harrived.update hframe hsum himage hbehind
    rw [afterIo_reading hn hslide harrived.state hoff hmaybe] at hx
    exact ⟨d, n, .body hd hfol, hsum, hlen, fun hzero => by omega, .inr ⟨rest', hrest, hx⟩⟩

lemma Receiving.round (h : Receiving P t r x c pos) (hlt : pos < x.bytes.length) :
    ∃ d n, RoundReads P t r x c s events pos d n := by
  cases h with
  | header hbusy hat hfits hpos htaken hfollowed =>
    exact round_header hframe hinput hopen hfail hbusy hat hfits hpos htaken hfollowed
  | body harrived hfollowed => exact round_body hframe hinput hopen hfail harrived hfollowed hlt

end Rounds

/-! ## Whole calls -/

/-- Whether the message counts as genuine; without a MIC it does. -/
def accepted (P : Ciphers) (t : Option Token) (header data trailer : Bytes) : Bool :=
  t.elim true fun t => t.genuine P header data trailer

structure Complete (P : Ciphers) (t r : Option Token) (x : Incoming) (c : Conn) : Prop where
  ready : Ready
    (if accepted P t x.header x.data x.trailer then backToken P t r x.header x.data else r)
    (if accepted P t x.header x.data x.trailer then nextToken P t x.header x.data else t)
    x.maxlen (x.log ++ [.reading]) c
  payload : (connRead c).1 = some ⟨x.data ++ [0], x.data.length, ntoh (x.header.drop 8)⟩
  micOk : c.message.readCrypto.micOk = accepted P t x.header x.data x.trailer

def ReceiveState (P : Ciphers) (t r : Option Token) (x : Incoming) (c : Conn) (pos : ℕ) : Prop :=
  (pos < x.bytes.length ∧ Receiving P t r x c pos) ∨
    (pos = x.bytes.length ∧ Complete P t r x c)

lemma connRead_of_buffer (herr : c.errno = none) (hbuffer : c.buffer = b) (hb : b ≠ []) :
    (connRead c).1 = some ⟨b, c.message.length, c.message.header.result⟩ := by
  unfold connRead
  rw [if_neg (by rw [herr]; simp)]
  rw [buffer_eq] at hbuffer
  cases hd : c.message.data with
  | none =>
    rw [hd] at hbuffer
    exact absurd hbuffer.symm hb
  | some n =>
    rw [hd] at hbuffer
    simp only [hd, map_some]
    exact congrArg (fun b : Bytes =>
      some (⟨b, c.message.length, c.message.header.result⟩ : Received)) hbuffer

lemma Arrived.done (hframe : x.Framed t) (h : Arrived x c pos)
    (hfollowed : Followed P t r x c.message pos) : ReceiveState P t r x (progressDone c) pos := by
  have htotal := h.total hframe hfollowed
  have hle := h.at'.le
  have hiff := h.at'.nvec_eq_zero_iff
  rw [htotal] at hle hiff
  unfold progressDone
  by_cases hnvec : c.message.nvec = 0
  · have hpos := hiff.1 hnvec
    have hlen := Incoming.length_bytes hframe
    have hbuffer : c.buffer = x.data ++ [0] := by
      have hsplit := take_append_drop x.data.length c.buffer
      rwa [h.payload (by omega), h.nul, eq_comm] at hsplit
    have hread : ∀ d : Conn, d.errno = none → d.buffer = c.buffer → d.message.length = c.message.length →
        d.message.header = c.message.header →
        (connRead d).1 = some ⟨x.data ++ [0], x.data.length, ntoh (x.header.drop 8)⟩ := by
      intro d herr hb hl hh
      rw [connRead_of_buffer herr (hb.trans hbuffer) (by simp), hl, h.length, hh]
      unfold Header.result
      rw [h.head]
    rw [if_neg (by omega)]
    refine .inr ⟨hpos, ?_⟩
    cases t with
    | none =>
      rw [if_pos ⟨h.state, hfollowed.1⟩]
      refine ⟨⟨h.errno, rfl, h.callback, ?_, h.maxlen, h.fits.header, h.fits.trailer, hfollowed.2, ?_⟩,
        ?_, rfl⟩
      · rw [h.callbacks, h.state]
      · show (c.message.readCrypto.context).map _ = _
        rw [show c.message.readCrypto.context = none from hfollowed.1]
        rfl
      · refine hread _ h.errno ?_ rfl rfl
        rw [buffer_eq, buffer_eq]
    | some t =>
      have htrailer : x.trailer.length = micLen := hframe.length_trailer
      have hver := hfollowed.2.2.2 (by omega)
      have hsome : c.message.readCrypto.context ≠ none := by
        intro hnone
        have hsome := hfollowed.isSome
        rw [show c.message.context .reading = none from hnone] at hsome
        exact absurd hsome (by simp)
      rw [if_neg fun hc => hsome hc.2]
      refine ⟨⟨h.errno, rfl, h.callback, ?_, h.maxlen, h.fits.header, h.fits.trailer, hver.writing, ?_⟩,
        ?_, hver.micOk⟩
      · show c.callbacks ++ [c.state] = _
        rw [h.callbacks, h.state]
      · refine hver.reading.trans ?_
        show some (if t.genuine P x.header x.data x.trailer then _ else _) =
          if t.genuine P x.header x.data x.trailer then _ else _
        split_ifs
        · rfl
        · rfl
      · refine hread _ h.errno ?_ rfl rfl
        rw [buffer_eq, buffer_eq]
  · rw [if_pos (by omega)]
    exact .inl ⟨by omega, .body h hfollowed⟩

lemma Receiving.done (hframe : x.Framed t) (h : Receiving P t r x c pos) :
    ReceiveState P t r x (progressDone c) pos := by
  cases h with
  | header hbusy hat hfits hpos htaken hfollowed =>
    have hne := hat.nvec_ne_zero hpos
    have hkeep : progressDone c = c := if_pos (by omega)
    rw [hkeep]
    refine .inl ⟨?_, .header hbusy hat hfits hpos htaken hfollowed⟩
    rw [Incoming.length_bytes hframe]
    omega
  | body harrived hfollowed => exact harrived.done hframe hfollowed

lemma Receiving.nvec (hframe : x.Framed t) (h : Receiving P t r x c pos) :
    c.message.nvec = 0 ↔ pos = x.bytes.length := by
  cases h with
  | header hbusy hat hfits hpos htaken hfollowed =>
    have hne := hat.nvec_ne_zero hpos
    rw [Incoming.length_bytes hframe]
    omega
  | body harrived hfollowed =>
    rw [harrived.at'.nvec_eq_zero_iff, harrived.total hframe hfollowed]

structure CallReads (P : Ciphers) (t r : Option Token) (x : Incoming) (s : Stream) (pos : ℕ)
    (result : Except Abort (Conn × Stream)) (d : Conn) (pos' : ℕ) : Prop where
  ok : result = .ok (d, s.skip (pos' - pos))
  le : pos ≤ pos'
  input : pos' - pos ≤ s.input.length
  state : ReceiveState P t r x d pos'

lemma Stream.skip_zero (s : Stream) : s.skip 0 = s :=
  rfl

lemma Stream.skip_skip (s : Stream) (n k : ℕ) : (s.skip n).skip k = s.skip (n + k) := by
  unfold Stream.skip
  rw [drop_drop]

def Stream.arrive (s : Stream) (b : Bytes) : Stream :=
  { s with input := s.input ++ b }

lemma arrive_arrive (s : Stream) (b b' : Bytes) : (s.arrive b).arrive b' = s.arrive (b ++ b') := by
  unfold Stream.arrive
  rw [append_assoc]

lemma arrive_nil (s : Stream) : s.arrive [] = s := by
  unfold Stream.arrive
  rw [append_nil]

lemma skip_arrive (h : n ≤ s.input.length) : (s.skip n).arrive b = (s.arrive b).skip n := by
  unfold Stream.skip Stream.arrive
  rw [drop_append_of_le_length h]

section Composition

variable {pos₁ : ℕ} {d : Conn} {more : Bytes} {result result' : Except Abort (Conn × Stream)}

/-- More is read after more has arrived. -/
theorem CallReads.trans (h : CallReads P t r x s pos result d pos₁) {d' : Conn}
    (h' : CallReads P t r x ((s.skip (pos₁ - pos)).arrive more) pos₁ result' d' pos') :
    CallReads P t r x (s.arrive more) pos result' d' pos' := by
  have hle := h.le
  have hle' := h'.le
  have hin := h.input
  have hin' := h'.input
  have hok := h'.ok
  rw [skip_arrive hin] at hin' hok
  have hlen : ((s.arrive more).skip (pos₁ - pos)).input.length =
      (s.arrive more).input.length - (pos₁ - pos) := length_drop
  have hgrow : (s.arrive more).input.length = s.input.length + more.length := length_append
  refine ⟨?_, by omega, by omega, h'.state⟩
  rw [hok, Stream.skip_skip, show pos₁ - pos + (pos' - pos₁) = pos' - pos by omega]

/-- What is left in the stream continues the message. -/
theorem input_skip (hinput : s.input ++ more <+: x.bytes.drop pos ++ rest) (hn : n ≤ s.input.length)
    (hle : pos + n ≤ x.bytes.length) :
    (s.skip n).input ++ more <+: x.bytes.drop (pos + n) ++ rest := by
  have hdrop := (prefix_take (n := n) hinput (by rw [length_append]; omega)
    (by rw [length_drop]; omega)).2
  rwa [drop_append_of_le_length hn, drop_drop] at hdrop

lemma whole_skip (hwhole : x.bytes.drop pos <+: s.input) (hle : pos + n ≤ x.bytes.length) :
    x.bytes.drop (pos + n) <+: (s.skip n).input := by
  obtain ⟨y, hy⟩ := hwhole
  have hdrop := congrArg (drop n) hy
  rw [drop_append_of_le_length (by rw [length_drop]; omega), drop_drop] at hdrop
  exact ⟨y, hdrop⟩

end Composition

/-- The loop of `Unameit_Conn_Progress`, over the number of rounds that are left. -/
theorem Receiving.loop (hframe : x.Framed t) {packets : ℕ} (h : Receiving P t r x c pos)
    (hpos : pos ≤ x.bytes.length) (hinput : s.input <+: x.bytes.drop pos ++ rest)
    (hopen : s.closed = false) (hfail : .fail ∉ events) :
    ∃ d pos', CallReads P t r x s pos (progressLoop P packets c s events) d pos' ∧
      (Moves events → s.input ≠ [] → 0 < packets → pos < x.bytes.length → pos < pos') := by
  induction packets generalizing c pos s events with
  | zero =>
    refine ⟨progressDone c, pos, ⟨?_, le_refl _, by omega, h.done hframe⟩,
      fun _ _ hlt => absurd hlt (by omega)⟩
    rw [Nat.sub_self]
    rfl
  | succ packets ih =>
    have hnvec := h.nvec hframe
    unfold progressLoop
    by_cases hzero : c.message.nvec = 0
    · rw [if_pos hzero]
      refine ⟨progressDone c, pos, ⟨?_, le_refl _, by omega, h.done hframe⟩,
        fun _ _ _ hlt => by omega⟩
      rw [Nat.sub_self, Stream.skip_zero]
    · rw [if_neg hzero]
      have hlt : pos < x.bytes.length := by omega
      obtain ⟨d, n, hround⟩ := h.round hframe hinput hopen hfail hlt
      have hmoves : Moves events → s.input ≠ [] → 0 < n := by
        intro hm hne
        by_contra hn
        exact hround.moves (by omega) ⟨hm, hne⟩
      have hn : pos + n - pos = n := Nat.add_sub_cancel_left pos n
      rcases hround.round with ⟨hlt', hok⟩ | ⟨rest', hrest, hok⟩
      · refine ⟨d, pos + n, ⟨?_, by omega, ?_, .inl ⟨hlt', hround.receiving⟩⟩,
          fun hm hne _ _ => by have := hmoves hm hne; omega⟩
        · rw [hok, hn]
          rfl
        · rw [hn]
          exact hround.input
      · have hinput' : (s.skip n).input <+: x.bytes.drop (pos + n) ++ rest := by
          rw [← append_nil s.input] at hinput
          have := input_skip hinput hround.input hround.le
          rwa [append_nil] at this
        obtain ⟨d', pos', hcall, -⟩ := ih hround.receiving hround.le hinput' hopen
          fun hmem => hfail (hrest hmem)
        have hle' := hcall.le
        have hin := hcall.input
        have hin' := hround.input
        refine ⟨d', pos', ⟨?_, by omega, ?_, hcall.state⟩, fun hm hne _ _ => ?_⟩
        · rw [hok]
          show progressLoop P packets d (s.skip n) rest' = _
          rw [hcall.ok, Stream.skip_skip]
          congr 3
          omega
        · have hskip : (s.skip n).input.length = s.input.length - n := length_drop
          omega
        · have := hmoves hm hne
          omega

lemma Receiving.busy (h : Receiving P t r x c pos) : Busy .reading x.maxlen x.log c := by
  cases h with
  | header hbusy => exact hbusy
  | body harrived => exact harrived.toBusy

lemma Receiving.progress (hframe : x.Framed t) (h : Receiving P t r x c pos)
    (hpos : pos < x.bytes.length) (hinput : s.input <+: x.bytes.drop pos ++ rest)
    (hopen : s.closed = false) (hfail : .fail ∉ events) :
    ∃ d pos', CallReads P t r x s pos (connProgress P c s events) d pos' ∧
      (Moves events → s.input ≠ [] → pos < pos') := by
  have hbusy := h.busy
  have hunfold : connProgress P c s events = progressLoop P 17 c s events := by
    unfold connProgress
    rw [if_neg (by rw [hbusy.errno]; simp), if_neg (by rw [hbusy.callback]; simp),
      if_pos (.inr hbusy.state)]
  rw [hunfold]
  obtain ⟨d, pos', hreads, hmoves⟩ := h.loop hframe (le_of_lt hpos) hinput hopen hfail
  exact ⟨d, pos', hreads, fun hm hne => hmoves hm hne (by decide) hpos⟩

/-- Bytes arrive, and `Unameit_Conn_Progress` is called while a message is being read. -/
def receiveCalls (P : Ciphers) :
    Conn → Stream → List (Bytes × List Event) → Except Abort (Conn × Stream)
  | c, s, [] => .ok (c, s)
  | c, s, (b, events) :: calls =>
    if c.state = .reading then do
      let (c, s) ← connProgress P c (s.arrive b) events
      receiveCalls P c s calls
    else receiveCalls P c (s.arrive b) calls

def arrivals (calls : List (Bytes × List Event)) : Bytes :=
  calls.flatMap Prod.fst

lemma ReceiveState.le (h : ReceiveState P t r x c pos) : pos ≤ x.bytes.length := by
  rcases h with ⟨hlt, -⟩ | ⟨heq, -⟩
  · exact le_of_lt hlt
  · exact le_of_eq heq

/-- Any number of calls: what has been read is the message up to some position, and no byte
behind it. -/
theorem ReceiveState.calls (hframe : x.Framed t) (h : ReceiveState P t r x c pos)
    {calls : List (Bytes × List Event)}
    (hinput : s.input ++ arrivals calls <+: x.bytes.drop pos ++ rest) (hopen : s.closed = false)
    (hfail : ∀ call ∈ calls, .fail ∉ call.2) :
    ∃ d pos', CallReads P t r x (s.arrive (arrivals calls)) pos (receiveCalls P c s calls) d pos' ∧
      (x.bytes.drop pos <+: s.input → (∀ call ∈ calls, Moves call.2) →
        min (pos + calls.length) x.bytes.length ≤ pos') := by
  induction calls generalizing c s pos with
  | nil =>
    refine ⟨c, pos, ⟨?_, le_refl _, by omega, h⟩, fun _ _ => min_le_left _ _⟩
    rw [Nat.sub_self]
    show _ = Except.ok (c, s.arrive [])
    rw [arrive_nil]
    rfl
  | cons call calls ih =>
    obtain ⟨b, events⟩ := call
    have hall : arrivals ((b, events) :: calls) = b ++ arrivals calls := rfl
    have hrest : ∀ call ∈ calls, .fail ∉ call.2 := fun e he => hfail e (mem_cons_of_mem _ he)
    have hfail' : .fail ∉ events := hfail _ mem_cons_self
    rw [hall, ← append_assoc] at hinput
    rw [hall, ← arrive_arrive]
    unfold receiveCalls
    rcases h with ⟨hlt, hrecv⟩ | ⟨heq, hdone⟩
    · have hnow : (s.arrive b).input <+: x.bytes.drop pos ++ rest :=
        (prefix_append _ _).trans hinput
      obtain ⟨d, pos₁, hreads, hmoves⟩ := hrecv.progress hframe hlt hnow hopen hfail'
      have hle₁ := hreads.le
      have hmax₁ := hreads.state.le
      have hsum : pos + (pos₁ - pos) = pos₁ := Nat.add_sub_cancel' hle₁
      have hinput' := input_skip (s := s.arrive b) hinput hreads.input (by omega)
      rw [hsum] at hinput'
      obtain ⟨d', pos', hreads', hmoves'⟩ := ih hreads.state hinput' hopen hrest
      have hle' := hreads'.le
      refine ⟨d', pos', ?_, fun hwhole hall' => ?_⟩
      · rw [if_pos hrecv.busy.state, hreads.ok]
        exact hreads.trans hreads'
      · have hwhole' := hwhole.trans (prefix_append s.input b)
        have hsome : (s.arrive b).input ≠ [] := by
          intro hnil
          have hlen := hwhole'.length_le
          rw [show s.input ++ b = [] from hnil, length_drop, length_nil] at hlen
          omega
        have hstep := hmoves (hall' _ mem_cons_self) hsome
        have hleft := whole_skip (s := s.arrive b) (n := pos₁ - pos) hwhole' (by omega)
        rw [hsum] at hleft
        have hmore := hmoves' hleft fun e he => hall' e (mem_cons_of_mem _ he)
        rw [length_cons]
        omega
    · rw [if_neg (by rw [hdone.ready.state]; decide)]
      obtain ⟨d, pos', hreads, -⟩ := ih (s := s.arrive b) (.inr ⟨heq, hdone⟩) hinput hopen hrest
      exact ⟨d, pos', hreads, fun _ _ => by have := hreads.le; omega⟩

lemma Ready.poll {w : Option Token} (h : Ready w t x.maxlen x.log c) (hframe : x.Framed t) :
    ∃ d, connPoll P c = .ok d ∧ ReceiveState P t w x d 0 := by
  obtain ⟨d, hnew, hbusy, hoff, hlength, hheader, htrailer, htokens⟩ := newstate_of_ready h .reading
  unfold connPoll
  rw [if_neg (by rw [h.errno]; simp), hnew]
  simp only
  rw [if_neg (by rw [hbusy.errno]; simp)]
  have hfits : Fits d := by
    refine ⟨hheader, htrailer, ?_, ?_⟩
    · rw [hlength]
      decide
    · rw [hlength]
      exact fun hlt => absurd hlt (lt_irrefl _)
  have hcore : (iovInitHeader d.message .reading).core = d.message.core := core_iovInitHeader _ _
  set d₁ : Conn := { d with message := iovInitHeader d.message .reading } with hd₁
  have hdir : d₁.state = .reading := hbusy.state
  obtain ⟨d₂, hok, hkeeps, hsame, hbegun⟩ := maybeUpdateMic_reset P hdir (.inl rfl)
  have hat : AtPos d₁.message d₁.state 0 := by
    have hinit : AtPos (iovInitHeader d.message .reading) .reading 0 := atPos_iovInitHeader hoff
    rw [hdir]
    exact hinit
  refine ⟨d₂, hok, .inl ⟨?_, .header ((hbusy.of_core hcore).of_keeps hkeeps)
    (hat.of_keeps hkeeps hsame) ((hfits.of_core hcore).of_keeps hkeeps) (by decide) rfl ?_⟩⟩
  · rw [Incoming.length_bytes hframe]
    exact lt_of_lt_of_le (by decide) (Nat.le_add_right headerLen _)
  -- the tokens are those of the connection
  have htoken : ∀ dir, d₁.message.token dir = c.message.token dir := fun dir =>
    (token_of_core hcore dir).trans (htokens dir)
  rw [htoken, htoken, h.reading] at hbegun
  rw [← h.writing]
  exact hbegun.followed

end Wire
end Unameit
