import Unameit.Wire.Digest

/-!
# Wire.Send — sending one message

The bytes of a message on the stream are its header, its data and, if there is a context for
writing, the trailer for the token of the context.  However the stream splits them, the bytes that
have been written are a part of them from the beginning (`Sending.calls`), and the callback is called
once they are complete.

The checksum is always ahead of the bytes that are written: before each I/O it covers the window, and
the trailer is filled in before the first I/O that can reach it.
-/

namespace Unameit
namespace Wire

open Option List

variable {pos' : ℕ} {m : Message} {state : ConnState} {ctx : Context}

open Message

variable {P : Ciphers} {c c' : Conn} {s : Stream} {events : List Event} {pos : ℕ}

/-! ## How far the checksum goes -/

def checked (length pos : ℕ) : ℕ :=
  min length (pos - headerLen + window length (pos - headerLen))

lemma checked_le (length pos : ℕ) : checked length pos ≤ length :=
  min_le_left _ _

lemma checked_mono (length : ℕ) (h : pos ≤ pos') : checked length pos ≤ checked length pos' := by
  unfold checked window
  split_ifs
  · omega
  · omega
  · omega
  · omega

/-- If the window does not reach the end of the data, the I/O does not reach the trailer. -/
theorem AtPos.avail_checked (h : AtPos m state pos) (hlt : checked m.length pos < m.length) :
    pos + avail m.vectors ≤ headerLen + m.length := by
  have hw : window m.length (pos - headerLen) ≤ m.length - (pos - headerLen) := window_le
  have hnil : avail [] = 0 := rfl
  unfold checked at hlt
  rw [h.vectors]
  unfold planned dataPlan
  by_cases hpos : pos < headerLen
  · have hzero : pos - headerLen = 0 := by omega
    rw [hzero] at hlt hw
    rw [if_pos hpos, avail_cons]
    split_ifs with hwrite hoff hend
    · omega
    · rw [avail_cons]
      simp only
      omega
    · omega
    · simp only [hnil]
      omega
  · rw [if_neg hpos, if_pos (by omega), if_neg (by omega), avail_cons]
    simp only
    omega

lemma Message.iov_one {v w : Iovec} {rest : List Iovec} (h : m.vectors = v :: w :: rest) :
    m.iov 1 = w := by
  have hlen := (iov_zero h).2
  have htwo : (range m.nvec)[1]? = some 1 := by
    rw [hlen, length_cons, getElem?_range (by omega)]
  have hget := congrArg (fun l : List Iovec => l[1]?) h
  simp only [vectors, getElem?_map, htwo, map_some, getElem?_cons_succ,
    getElem?_cons_zero] at hget
  exact some.inj hget

/-- The window that is handed out next is checksummed. -/
theorem micEnd_writing (h : AtPos m .writing pos) (hsmall : m.length < 2 ^ 31) :
    micEnd m .writing = checked m.length pos := by
  have hle := checked_le m.length pos
  have hunfold : micEnd m .writing =
      if m.header.offset < headerLen ∧ 0 < m.length then int32 (m.offset + (m.iov 1).len)
      else if m.offset < m.length then int32 (m.offset + (m.iov 0).len)
      else int32 m.length := rfl
  rw [hunfold]
  by_cases hpos : pos < headerLen
  · obtain ⟨hh, ho⟩ := h.offsets_header hpos
    have hzero : pos - headerLen = 0 := by omega
    by_cases hlen : 0 < m.length
    · have hvec := h.vectors_header hpos
      have hw : window m.length 0 ≤ m.length - 0 := window_le
      have hiov : (m.iov 1).len = window m.length 0 := by
        unfold dataPlan at hvec
        rw [if_pos hlen] at hvec
        rw [iov_one hvec]
      rw [if_pos ⟨by omega, hlen⟩, int32_of_lt (by omega) (by omega)]
      unfold checked
      rw [hzero]
      omega
    · rw [if_neg fun hc => hlen hc.2, if_neg (by omega), int32_of_lt (by omega) (by omega)]
      omega
  · have hh : m.header.offset = headerLen := by
      rw [h.header]
      omega
    have ho := h.offset
    rw [if_neg fun hc => by omega]
    by_cases hdata : pos - headerLen < m.length
    · have hvec := h.vectors_data (by omega) hdata
      have hw : window m.length (pos - headerLen) ≤ m.length - (pos - headerLen) := window_le
      rw [(iov_zero hvec).1]
      unfold checked
      rw [int32_of_lt (by simp only; omega) (by simp only; omega)]
      simp only
      omega
    · rw [if_neg (by omega), int32_of_lt (by omega) (by omega)]
      unfold checked
      omega

/-! ## The phases of a checksum -/

section Phases

variable (P) (t : Token) (r : Option Token) (header data : Bytes)

def Unstarted (m : Message) (state : ConnState) : Prop :=
  ∃ ctx, m.context state = some ctx ∧ ctx.offset = 0 ∧ ctx.token = t ∧ m.token state.other = r

def Summing (m : Message) (state : ConnState) (e : ℕ) : Prop :=
  ∃ ctx, m.context state = some ctx ∧ ctx.Sums t header data e ∧ m.token state.other = r

def Sealed (m : Message) : Prop :=
  ∃ ctx, m.context .writing = some ctx ∧ ctx.offset = headerLen + data.length ∧
    ctx.final = true ∧ ctx.token = t.next P header data ∧
    m.token .reading = t.back P r header data ∧ m.trailer.mic = t.trailer P header data

end Phases

def Begun (t r : Option Token) (m : Message) (state : ConnState) : Prop :=
  match t with
  | none => m.context state = none ∧ m.token state.other = r
  | some t => Unstarted t r m state

/-- The checksum is reset at the beginning of a message. -/
theorem maybeUpdateMic_reset (P : Ciphers) (h : c.state = state)
    (hdir : state = .reading ∨ state = .writing) :
    ∃ d, maybeUpdateMic P c true = .ok d ∧ Keeps c d ∧
      d.message.hasMic c.state = c.message.hasMic c.state ∧
      Begun (c.message.token state) (c.message.token state.other) d.message state := by
  have hmic := hasMic_eq (c := c) (by rw [h]; exact hdir)
  have hok : ∃ d, maybeUpdateMic P c true = .ok d ∧
      Begun ((c.message.context state).map Context.token) (c.message.token state.other) d.message
        state := by
    unfold maybeUpdateMic
    rw [hmic, h]
    cases hctx : c.message.context state with
    | none => exact ⟨c, rfl, hctx, rfl⟩
    | some ctx =>
      rcases hdir with rfl | rfl
      · have hread : c.message.readCrypto.context = some ctx := hctx
        refine ⟨c.setContext { ctx with offset := 0 } .reading, ?_, _, rfl, rfl, rfl, rfl⟩
        simp [updateMic, h, hread]
      · have hwrite : c.message.writeCrypto.context = some ctx := hctx
        refine ⟨c.setContext { ctx with offset := 0 } .writing, ?_, _, rfl, rfl, rfl, rfl⟩
        simp [updateMic, h, hwrite]
  obtain ⟨d, hmaybe, hbegun⟩ := hok
  obtain ⟨hkeeps, hsame⟩ := maybeUpdateMic_keeps hmaybe
  exact ⟨d, hmaybe, hkeeps, hsame, hbegun⟩

structure Busy (state : ConnState) (maxlen : ℕ) (log : List ConnState) (c : Conn) : Prop where
  state : c.state = state
  errno : c.errno = none
  callback : c.callback = true
  callbacks : c.callbacks = log
  maxlen : c.message.maxlen = maxlen

structure Carries (c : Conn) (header data : Bytes) : Prop where
  header : c.message.header.data = header
  length : c.message.length = data.length
  small : data.length < 2 ^ 31
  data : c.buffer.take data.length = data

variable {t : Token} {r : Option Token} {header data : Bytes}

lemma updateMic_eq (hdir : c.state = .reading ∨ c.state = .writing)
    (hctx : c.message.context c.state = some ctx) :
    updateMic P c false = updateMicWith P c ctx := by
  unfold updateMic
  rcases hdir with h | h
  · have hread : c.message.readCrypto.context = some ctx := by
      rw [h] at hctx
      exact hctx
    simp [h, hread]
  · have hwrite : c.message.writeCrypto.context = some ctx := by
      rw [h] at hctx
      exact hctx
    simp [h, hwrite]

lemma updateMicWith_writing (P : Ciphers) (hstate : c.state = .writing) {stop : ℤ}
    (hstop : micEnd c.message .writing = stop) :
    updateMicWith P c ctx =
      if stop % 2 ^ 32 < c.message.length then
        .ok (c.setContext ((ctx.start c.message.header.data).update c.buffer stop) .writing)
      else if ((ctx.start c.message.header.data).update c.buffer stop).final then
        .ok (c.setContext ((ctx.start c.message.header.data).update c.buffer stop) .writing)
      else sealMic P c (((ctx.start c.message.header.data).update c.buffer stop).finish P) := by
  unfold updateMicWith Conn.buffer
  simp only [hstate, hstop]
  rw [if_neg fun h => nomatch h.2.1]
  simp only [and_true, if_true]

/-- The digest is encrypted into the trailer. -/
theorem sealMic_spec (herr : c.errno = none) (hstate : c.state = .writing)
    (hsums : ctx.Sums t header data data.length) (hr : c.message.token .reading = r) :
    ∃ c', sealMic P c (ctx.finish P) = .ok c' ∧ Sealed P t r header data c'.message := by
  have hfinish := hsums.finish (P := P)
  have htoken : (ctx.finish P).token = t := by
    rw [hfinish]
    exact hsums.token
  have hdigest : (ctx.finish P).digest = (ctx.finish P).token.digest P header data := by
    rw [htoken, hfinish]
  set mic : Bytes := P.encrypt (ctx.finish P).key ((ctx.finish P).digest.take desLen) ++
    P.encrypt (ctx.finish P).key ((ctx.finish P).digest.drop desLen) with hmic
  obtain ⟨c', hok, hctx, hnext, hback, htrailer, -⟩ :=
    nextMic_spec (c := { c with message.trailer.mic := mic }) herr hstate (.inr rfl) hdigest
  refine ⟨c', hok, _, hctx, ?_, ?_, ?_, ?_, ?_⟩
  · rw [hfinish]
    exact hsums.offset
  · rw [hfinish]
  · simp only [token, hctx, map_some, some.injEq, htoken] at hnext
    exact hnext
  · rw [htoken] at hback
    rw [← hr]
    exact hback
  · rw [htrailer]
    rw [hmic, hfinish, ← hsums.token]
    rfl

/-- The checksum is brought up to `stop`, and the trailer is filled in at the end of the data. -/
theorem Carries.updateMic_writing (h : Carries c header data) (hstate : c.state = .writing)
    (herr : c.errno = none) {stop : ℕ} (hstop : micEnd c.message .writing = stop) (hle : stop ≤ data.length)
    (hphase : Unstarted t r c.message .writing ∨
      (∃ e ≤ stop, Summing t r header data c.message .writing e) ∨
      (stop = data.length ∧ Sealed P t r header data c.message)) :
    ∃ c', updateMic P c false = .ok c' ∧
      (stop < data.length → Summing t r header data c'.message .writing stop) ∧
      (stop = data.length → Sealed P t r header data c'.message) := by
  have hdir : c.state = .reading ∨ c.state = .writing := .inr hstate
  have hmod : (stop : ℤ) % 2 ^ 32 = stop := by
    have := h.small
    omega
  have hsmall : stop < 2 ^ 31 := lt_of_le_of_lt hle h.small
  have hbuffer : c.buffer.take stop = data.take stop := by
    have hsame := congrArg (take stop) h.data
    rwa [take_take, min_eq_left hle] at hsame
  have hstart : Unstarted t r c.message .writing ∨
      (∃ e ≤ stop, Summing t r header data c.message .writing e) →
      ∃ ctx, c.message.context .writing = some ctx ∧
        ((ctx.start header).update c.buffer stop).Sums t header data stop ∧
        c.message.token .reading = r := by
    rintro (⟨ctx, hctx, hoff, htoken, hr⟩ | ⟨e, he, ctx, hctx, hsums, hr⟩)
    · exact ⟨ctx, hctx, (Context.start_sums hoff htoken).update (Nat.zero_le _) hsmall hbuffer, hr⟩
    · refine ⟨ctx, hctx, ?_, hr⟩
      rw [hsums.start]
      exact hsums.update he hsmall hbuffer
  -- a checksum that has been sealed is left alone
  by_cases hsealed : stop = data.length ∧ Sealed P t r header data c.message
  · obtain ⟨heq, ctx, hctx, hoff, hfinal, htoken, hback, hmic⟩ := hsealed
    have hkeep : (ctx.start header).update c.buffer stop = ctx := by
      have hheader : headerLen = 16 := rfl
      have hstart : ctx.start header = ctx := if_neg (by omega)
      rw [hstart]
      unfold Context.update
      rw [if_neg (by rw [int32_of_lt (by omega) (by omega)]; omega)]
    refine ⟨c.setContext ctx .writing, ?_, fun hlt => by omega, fun _ => ?_⟩
    · rw [updateMic_eq hdir (by rw [hstate]; exact hctx), updateMicWith_writing P hstate hstop,
        h.header, hkeep, if_neg (by rw [h.length]; omega), if_pos hfinal]
    · exact ⟨ctx, rfl, hoff, hfinal, htoken, hback, hmic⟩
  · have hopen := hphase.imp_right fun h' => h'.resolve_right hsealed
    obtain ⟨ctx, hctx, hsums, hr⟩ := hstart hopen
    rw [updateMic_eq hdir (by rw [hstate]; exact hctx), updateMicWith_writing P hstate hstop,
      h.header, h.length]
    by_cases hlt : stop < data.length
    · rw [if_pos (by omega)]
      exact ⟨_, rfl, fun _ => ⟨_, rfl, hsums, hr⟩, fun heq => by omega⟩
    · have heq : stop = data.length := by omega
      rw [if_neg (by omega), if_neg (by rw [hsums.final]; decide)]
      subst heq
      obtain ⟨c', hok, hseal⟩ := sealMic_spec herr hstate hsums hr
      exact ⟨c', hok, fun hlt' => by omega, fun _ => hseal⟩

/-! ## The bytes of a message -/

def wire (P : Ciphers) (t : Option Token) (header data : Bytes) : Bytes :=
  header ++ (data ++ t.elim [] fun t => t.trailer P header data)

def Pending (P : Ciphers) (t r : Option Token) (header data : Bytes) (m : Message) (pos : ℕ) : Prop :=
  match t with
  | none => m.context .writing = none ∧ m.token .reading = r
  | some t =>
    (pos ≤ headerLen + data.length ∧ (Unstarted t r m .writing ∨
      ∃ e ≤ checked data.length pos, Summing t r header data m .writing e)) ∨
    (checked data.length pos = data.length ∧ Sealed P t r header data m)

def Updated (P : Ciphers) (t r : Option Token) (header data : Bytes) (m : Message) (pos : ℕ) : Prop :=
  match t with
  | none => m.context .writing = none ∧ m.token .reading = r
  | some t =>
    (checked data.length pos < data.length →
      Summing t r header data m .writing (checked data.length pos)) ∧
    (checked data.length pos = data.length → Sealed P t r header data m)

variable {t : Option Token} {m' : Message}

lemma Message.context_of_core (h : m'.core = m.core) (state : ConnState) :
    m'.context state = m.context state := by
  cases state with
  | reading => exact same_of_core h (·.readCrypto.context)
  | writing =>
    exact same_of_core h (·.writeCrypto.context)
  | _ => rfl

lemma Message.token_of_core (h : m'.core = m.core) (state : ConnState) :
    m'.token state = m.token state :=
  congrArg (Option.map Context.token) (context_of_core h state)

lemma Begun.pending (h : Begun t r m .writing) : Pending P t r header data m 0 := by
  cases t with
  | none => exact h
  | some t => exact .inl ⟨Nat.zero_le _, .inl h⟩

lemma Pending.isSome (h : Pending P t r header data m pos) :
    (m.context .writing).isSome = t.isSome := by
  cases t with
  | none => rw [h.1, isSome_none, isSome_none]
  | some t =>
    rcases h with ⟨-, ⟨ctx, hctx, -⟩ | ⟨e, -, ctx, hctx, -⟩⟩ | ⟨-, ctx, hctx, -⟩
    · rw [hctx, isSome_some, isSome_some]
    · rw [hctx, isSome_some, isSome_some]
    · rw [hctx, isSome_some, isSome_some]

lemma Updated.pending (h : Updated P t r header data m pos) (hle : pos ≤ pos')
    (hbefore : checked data.length pos < data.length → pos' ≤ headerLen + data.length)
    (hcore : m'.core = m.core) : Pending P t r header data m' pos' := by
  have hwrite := context_of_core hcore .writing
  have hread := token_of_core hcore .reading
  have hmic : m'.trailer.mic = m.trailer.mic := same_of_core hcore (·.trailer.mic)
  have hmono := checked_mono data.length hle
  have hmax := checked_le data.length pos'
  cases t with
  | none => exact ⟨hwrite.trans h.1, hread.trans h.2⟩
  | some t =>
    by_cases hlt : checked data.length pos < data.length
    · obtain ⟨ctx, hctx, hsums, hr⟩ := h.1 hlt
      refine .inl ⟨hbefore hlt, .inr ⟨_, hmono, ctx, hwrite.trans hctx, hsums, ?_⟩⟩
      exact hread.trans hr
    · have heq : checked data.length pos = data.length := by
        omega
      obtain ⟨ctx, hctx, hoff, hfinal, htoken, hback, hseal⟩ := h.2 heq
      exact .inr ⟨by omega, ctx, hwrite.trans hctx, hoff, hfinal, htoken, hread.trans hback,
        hmic.trans hseal⟩

/-- The bytes that the vectors describe are those of the message. -/
theorem Updated.image (h : Updated P t r header data c.message pos)
    (hc : Carries c header data) (hdir : c.state = .writing) (hfits : Fits c) (hat : AtPos c.message c.state pos)
    {n : ℕ} (hn : n ≤ avail c.message.vectors) :
    (c.image.drop pos).take n = ((wire P t header data).drop pos).take n := by
  have hdata : c.buffer.take c.message.length = data := by
    rw [hc.length]
    exact hc.data
  have himage : c.image =
      header ++ (data ++ if c.message.hasMic c.state then c.message.trailer.mic else []) := by
    unfold Conn.image
    rw [hc.header, hdata]
  have hmic := hasMic_eq (c := c) (.inr hdir)
  rw [himage, hmic, hdir]
  cases t with
  | none =>
    rw [h.1]
    rfl
  | some t =>
    by_cases hlt : checked data.length pos < data.length
    · -- the window ends before the trailer
      have hheader := hfits.header
      have hle := hat.avail_checked (by rw [hc.length]; exact hlt)
      rw [hc.header] at hheader
      rw [hc.length] at hle
      have htake : ∀ x : Bytes, (header ++ (data ++ x)).take (pos + n) =
          (header ++ data).take (pos + n) := by
        intro x
        rw [← append_assoc, take_append_of_le_length]
        rw [length_append]
        omega
      have hsame : ∀ x : Bytes, ((header ++ (data ++ x)).drop pos).take n =
          ((header ++ data).take (pos + n)).drop pos := by
        intro x
        rw [← htake x, drop_take, Nat.add_sub_cancel_left]
      unfold wire
      rw [hsame, hsame]
    · obtain ⟨ctx, hctx, -, -, -, -, hseal⟩ := h.2 (by have := checked_le data.length pos; omega)
      rw [hctx, hseal]
      rfl

/-! ## One message -/

structure Sending (P : Ciphers) (t r : Option Token) (header data : Bytes) (maxlen : ℕ)
    (log : List ConnState) (c : Conn) (pos : ℕ) : Prop extends Busy .writing maxlen log c where
  carries : Carries c header data
  at' : AtPos c.message c.state pos
  fits : Fits c
  pending : Pending P t r header data c.message pos

structure Ready (w r : Option Token) (maxlen : ℕ) (log : List ConnState) (c : Conn) : Prop where
  errno : c.errno = none
  state : c.state = .iodone
  callback : c.callback = true
  callbacks : c.callbacks = log
  maxlen : c.message.maxlen = maxlen
  header : c.message.header.data.length = headerLen
  trailer : c.message.trailer.mic.length = micLen
  writing : c.message.token .writing = w
  reading : c.message.token .reading = r

variable {maxlen : ℕ} {log : List ConnState}

lemma Busy.of_keeps (h : Busy state maxlen log c) (hk : Keeps c c') : Busy state maxlen log c' :=
  ⟨hk.state.trans h.state, (hk.same Conn.errno).trans h.errno,
    (hk.same Conn.callback).trans h.callback, (hk.same Conn.callbacks).trans h.callbacks,
    (hk.same (·.message.maxlen)).trans h.maxlen⟩

lemma Busy.of_core (h : Busy state maxlen log c) (hcore : m.core = c.message.core) :
    Busy state maxlen log { c with message := m } :=
  ⟨h.state, h.errno, h.callback, h.callbacks,
    (Message.same_of_core hcore Message.maxlen).trans h.maxlen⟩

lemma Carries.of_keeps (h : Carries c header data) (hk : Keeps c c') : Carries c' header data := by
  have hheader : c'.message.header = c.message.header := hk.same (·.message.header)
  have hlength : c'.message.length = c.message.length := hk.same (·.message.length)
  refine ⟨?_, hlength.trans h.length, h.small, ?_⟩
  · rw [hheader]
    exact h.header
  · rw [hk.buffer]
    exact h.data

lemma Carries.of_core (h : Carries c header data) (hcore : m.core = c.message.core) :
    Carries { c with message := m } header data := by
  have hheader : m.header.data = c.message.header.data := same_of_core hcore (·.header.data)
  refine ⟨hheader.trans h.header, (length_of_core hcore).trans h.length, h.small, ?_⟩
  rw [buffer_of_core hcore]
  exact h.data

section

variable (h : Sending P t r header data maxlen log c pos)

include h

lemma Sending.update :
    ∃ d, maybeUpdateMic P c false = .ok d ∧ Keeps c d ∧
      d.message.hasMic c.state = c.message.hasMic c.state ∧
      Updated P t r header data d.message pos := by
  have hat := h.at'
  rw [h.state] at hat
  have hlength := h.carries.length
  have hend : micEnd c.message .writing = checked data.length pos := by
    rw [micEnd_writing hat (by rw [hlength]; exact h.carries.small), hlength]
  have hmic := hasMic_eq (c := c) (.inr h.state)
  rw [h.state] at hmic
  cases t with
  | none =>
    have hoff : c.message.hasMic c.state = false := by
      rw [h.state, hmic, h.pending.1]
      rfl
    refine ⟨c, ?_, .refl c, rfl, h.pending⟩
    unfold maybeUpdateMic
    rw [hoff]
    rfl
  | some t =>
    have hphase : Unstarted t r c.message .writing ∨
        (∃ e ≤ checked data.length pos, Summing t r header data c.message .writing e) ∨
        (checked data.length pos = data.length ∧ Sealed P t r header data c.message) := by
      rcases h.pending with ⟨-, hopen | hsum⟩ | hseal
      · exact .inl hopen
      · exact .inr (.inl hsum)
      · exact .inr (.inr hseal)
    have hon : c.message.hasMic c.state = true := by
      rw [h.state, hmic, h.pending.isSome]
      rfl
    obtain ⟨d, hok, hlt, heq⟩ :=
      h.carries.updateMic_writing h.state h.errno hend (checked_le _ _) hphase
    have hmaybe : maybeUpdateMic P c false = .ok d := by
      unfold maybeUpdateMic
      rw [hon]
      exact hok
    obtain ⟨hkeeps, hsame⟩ := maybeUpdateMic_keeps hmaybe
    exact ⟨d, hmaybe, hkeeps, hsame, hlt, heq⟩

lemma Sending.total : c.message.total c.state = (wire P t header data).length := by
  have hmic := hasMic_eq (c := c) (.inr h.state)
  have hheader := h.fits.header
  rw [h.carries.header] at hheader
  unfold Message.total wire
  rw [hmic, h.state, h.pending.isSome, h.carries.length, length_append,
    length_append, hheader]
  cases t with
  | none => rfl
  | some t =>
    show _ = headerLen + (data.length + (t.trailer P header data).length)
    rw [Token.length_trailer]
    exact add_assoc _ _ _

lemma Sending.round (hne : c.message.nvec ≠ 0) (hfail : .fail ∉ events) :
    (∃ d, progressRound P c s events = .ok (.returned d s) ∧
        Sending P t r header data maxlen log d pos ∧ ¬ Moves events) ∨
      ∃ d n rest, progressRound P c s events =
          .ok (.next d { s with output := s.output ++ ((wire P t header data).drop pos).take n } rest) ∧
        0 < n ∧ rest ⊆ events ∧ Sending P t r header data maxlen log d (pos + n) := by
  obtain ⟨d, hmaybe, hkeeps, hsame, hupdated⟩ := h.update
  have hat : AtPos d.message d.state pos := h.at'.of_keeps hkeeps hsame
  have hfits : Fits d := h.fits.of_keeps hkeeps
  have hcarries := h.carries.of_keeps hkeeps
  have hnvec : d.message.nvec = c.message.nvec := hkeeps.same (·.message.nvec)
  have hbusy := h.toBusy.of_keeps hkeeps
  have hround : WriteRound P d.hand pos s events (progressRound P c s events) :=
    progressRound_writing h.state hmaybe hat hfits (by rw [hnvec]; exact hne)
  have hbusy' : Busy .writing maxlen log d.hand :=
    ⟨hbusy.state, hbusy.errno, hbusy.callback, hbusy.callbacks, hbusy.maxlen⟩
  have hcarries' : Carries d.hand header data :=
    ⟨hcarries.header, hcarries.length, hcarries.small, hcarries.data⟩
  have hfits' : Fits d.hand := ⟨hfits.header, hfits.trailer, hfits.length_lt, hfits.data⟩
  generalize progressRound P c s events = x at hround
  cases hround with
  | blocked hstuck =>
    refine .inl ⟨d.hand, rfl, ⟨hbusy', hcarries', hat, hfits', ?_⟩, hstuck⟩
    refine hupdated.pending (le_refl _) (fun hlt => ?_) rfl
    have := hat.avail_checked (by rw [hcarries.length]; exact hlt)
    rw [hcarries.length] at this
    omega
  | failed hfail' => exact absurd hfail' hfail
  | @put rest n hrest hpos hle =>
    have hle' : n ≤ avail d.message.vectors := hle
    have hlen : d.message.length < 2 ^ 31 := by
      rw [hcarries.length]
      exact hcarries.small
    have himage : (d.hand.image.drop pos).take n = ((wire P t header data).drop pos).take n :=
      Updated.image (c := d.hand) hupdated hcarries' hbusy'.state hfits' hat hle
    rcases slideWindow_spec (c := d.hand) hat hfits.length_lt hle fun hread => by
        rw [hbusy'.state] at hread
        exact nomatch hread with ⟨-, hbig⟩ | ⟨m', pos', hslide, hcore, hat', hp⟩
    · exact absurd hbig (not_le.2 hlen)
    · have hpos' := hp hlen
      subst hpos'
      refine .inr ⟨{ d.hand with message := m' }, n, rest, ?_, hpos, hrest, ?_⟩
      · rw [afterIo_of_pos hpos, hslide, himage]
        have hdir : d.hand.state ≠ .reading := by
          rw [hbusy'.state]
          decide
        simp only [Except.bind, hdir, if_false]
      · refine ⟨hbusy'.of_core hcore, hcarries'.of_core hcore, hat', hfits'.of_core hcore, ?_⟩
        refine hupdated.pending (Nat.le_add_right _ _) (fun hlt => ?_) hcore
        have := hat.avail_checked (by rw [hcarries.length]; exact hlt)
        rw [hcarries.length] at this
        omega

end

/-! ## Whole calls -/

def nextToken (P : Ciphers) (t : Option Token) (header data : Bytes) : Option Token :=
  t.map fun t => t.next P header data

def backToken (P : Ciphers) (t r : Option Token) (header data : Bytes) : Option Token :=
  t.elim r fun t => t.back P r header data

def SendState (P : Ciphers) (t r : Option Token) (header data : Bytes) (maxlen : ℕ)
    (log : List ConnState) (c : Conn) (pos : ℕ) : Prop :=
  (pos < (wire P t header data).length ∧ Sending P t r header data maxlen log c pos) ∨
    (pos = (wire P t header data).length ∧
      Ready (nextToken P t header data) (backToken P t r header data) maxlen (log ++ [.writing]) c)

/-- The trailer has been filled in before it has been written. -/
theorem Sending.sealed {t : Token} (h : Sending P (some t) r header data maxlen log c pos)
    (hpos : pos = (wire P (some t) header data).length) : Sealed P t r header data c.message := by
  have hmicLen : micLen = 16 := rfl
  have hheader := h.fits.header
  rw [h.carries.header] at hheader
  have hlen : (wire P (some t) header data).length = headerLen + (data.length + micLen) := by
    unfold wire
    rw [length_append, length_append, hheader]
    exact congrArg (fun k => headerLen + (data.length + k)) (t.length_trailer P header data)
  rcases h.pending with ⟨hle, -⟩ | ⟨-, hseal⟩
  · omega
  · exact hseal

lemma Sending.done (h : Sending P t r header data maxlen log c pos) :
    SendState P t r header data maxlen log (progressDone c) pos := by
  have hle := h.at'.le
  rw [h.total] at hle
  have hiff := h.at'.nvec_eq_zero_iff
  rw [h.total] at hiff
  unfold progressDone
  by_cases hnvec : c.message.nvec = 0
  · have hpos := hiff.1 hnvec
    have hdir : ¬ (c.state = .reading ∧ c.message.readCrypto.context = none) := by
      rw [h.state]
      exact fun hc => nomatch hc.1
    rw [if_neg (by omega)]
    simp only [if_neg hdir]
    refine .inr ⟨hpos, h.errno, rfl, h.callback, ?_, h.maxlen, h.fits.header,
      h.fits.trailer, ?_, ?_⟩
    · rw [h.callbacks, h.state]
    · cases t with
      | none => exact congrArg (Option.map Context.token) h.pending.1
      | some t =>
        obtain ⟨ctx, hctx, -, -, htoken, -⟩ := h.sealed hpos
        exact (congrArg (Option.map Context.token) hctx).trans (congrArg some htoken)
    · cases t with
      | none => exact h.pending.2
      | some t =>
        obtain ⟨ctx, -, -, -, -, hback, -⟩ := h.sealed hpos
        exact hback
  · rw [if_pos (by omega)]
    exact .inl ⟨by omega, h⟩

def Stream.emit (s : Stream) (b : Bytes) : Stream :=
  { s with output := s.output ++ b }

lemma Stream.emit_nil (s : Stream) : s.emit [] = s := by
  unfold Stream.emit
  rw [append_nil]

lemma Stream.emit_emit (s : Stream) (b b' : Bytes) : (s.emit b).emit b' = s.emit (b ++ b') := by
  unfold Stream.emit
  rw [append_assoc]

def part (b : Bytes) (i j : ℕ) : Bytes :=
  (b.drop i).take (j - i)

lemma part_self (b : Bytes) (i : ℕ) : part b i i = [] := by
  unfold part
  rw [Nat.sub_self, take_zero]

lemma part_append (b : Bytes) {i j k : ℕ} (hij : i ≤ j) (hjk : j ≤ k) :
    part b i j ++ part b j k = part b i k := by
  have hsum : k - i = (j - i) + (k - j) := by omega
  unfold part
  rw [hsum, take_add, drop_drop, Nat.add_sub_cancel' hij]

/-- The loop of `Unameit_Conn_Progress`, over the number of rounds that are left. -/
theorem Sending.loop {packets : ℕ} (h : Sending P t r header data maxlen log c pos)
    (hfail : .fail ∉ events) :
    ∃ d pos', progressLoop P packets c s events =
        .ok (d, s.emit (part (wire P t header data) pos pos')) ∧
      pos ≤ pos' ∧ SendState P t r header data maxlen log d pos' ∧
      (Moves events → 0 < packets → pos < (wire P t header data).length → pos < pos') := by
  induction packets generalizing c pos s events with
  | zero =>
    refine ⟨progressDone c, pos, ?_, le_refl _, h.done, fun _ hlt => absurd hlt (by omega)⟩
    rw [part_self, Stream.emit_nil]
    rfl
  | succ packets ih =>
    unfold progressLoop
    by_cases hnvec : c.message.nvec = 0
    · rw [if_pos hnvec]
      have hpos := h.at'.nvec_eq_zero_iff.1 hnvec
      rw [h.total] at hpos
      refine ⟨progressDone c, pos, ?_, le_refl _, h.done, fun _ _ hlt => by omega⟩
      rw [part_self, Stream.emit_nil]
    · rw [if_neg hnvec]
      have hlt : pos < (wire P t header data).length := by
        have hle := h.at'.le
        have hiff := h.at'.nvec_eq_zero_iff
        rw [h.total] at hle hiff
        omega
      rcases h.round (s := s) hnvec hfail with ⟨d, hok, hd, hstuck⟩ | ⟨d, n, rest, hok, hn, hrest, hd⟩
      · refine ⟨d, pos, ?_, le_refl _, .inl ⟨hlt, hd⟩, fun hmoves => absurd hmoves hstuck⟩
        rw [hok, part_self, Stream.emit_nil]
        rfl
      · have hput : part (wire P t header data) pos (pos + n) =
            ((wire P t header data).drop pos).take n := by
          unfold part
          rw [Nat.add_sub_cancel_left]
        obtain ⟨d', pos', hok', hle, hstate, -⟩ := ih
          (s := s.emit (part (wire P t header data) pos (pos + n))) hd fun hmem => hfail (hrest hmem)
        refine ⟨d', pos', ?_, by omega, hstate, fun _ _ _ => by omega⟩
        rw [hok, ← part_append _ (Nat.le_add_right pos n) hle, ← Stream.emit_emit, ← hok', hput]
        rfl

lemma Sending.progress (h : Sending P t r header data maxlen log c pos) (hfail : .fail ∉ events) :
    ∃ d pos', connProgress P c s events =
        .ok (d, s.emit (part (wire P t header data) pos pos')) ∧
      pos ≤ pos' ∧ SendState P t r header data maxlen log d pos' ∧
      (Moves events → pos < (wire P t header data).length → pos < pos') := by
  have hunfold : connProgress P c s events = progressLoop P 17 c s events := by
    unfold connProgress
    rw [if_neg (by rw [h.errno]; simp), if_neg (by rw [h.callback]; simp),
      if_pos (.inl h.state)]
  rw [hunfold]
  obtain ⟨d, pos', hok, hle, hstate, hmoves⟩ := h.loop hfail
  exact ⟨d, pos', hok, hle, hstate, fun hm => hmoves hm (by decide)⟩

lemma newstate_of_ready {w : Option Token} (h : Ready w r maxlen log c) (state : ConnState) :
    ∃ d, newstate c state = d ∧ Busy state maxlen log d ∧ d.message.offset = 0 ∧
      d.message.length = 0 ∧ d.message.header.data.length = headerLen ∧
      d.message.trailer.mic.length = micLen ∧ ∀ dir, d.message.token dir = c.message.token dir := by
  have herr : c.releaseData.errno.isSome = false := by
    show c.errno.isSome = false
    rw [h.errno]
    rfl
  have hbad : ¬ (c.releaseData.state ≠ .iodone ∧
      (c.releaseData.message.header.offset ≠ 0 ∨ c.releaseData.state ≠ state)) := fun hc => hc.1 h.state
  unfold newstate
  simp only [herr, hbad, if_false]
  refine ⟨_, rfl, ⟨rfl, rfl, h.callback, h.callbacks, h.maxlen⟩, rfl, rfl, h.header, h.trailer,
    fun dir => ?_⟩
  cases dir with
  | _ => rfl

lemma Ready.write (h : Ready t r maxlen log c) (data : Bytes) (authType result : ℕ)
    (free : FreeProc) (hsmall : data.length < 2 ^ 31) :
    ∃ d, connWrite P c data authType result free = .ok d ∧
      SendState P t r (headerBytes authType result data.length) data maxlen log d 0 := by
  obtain ⟨d, hnew, hbusy, hoff, -, -, htrailer, htokens⟩ := newstate_of_ready h .writing
  have hmod : data.length % 2 ^ 32 = data.length := Nat.mod_eq_of_lt (by omega)
  unfold connWrite
  rw [hnew]
  simp only
  rw [if_neg (by rw [hbusy.errno]; simp), hmod]
  -- the message with its header and its data
  set m : Message :=
    { d.message with
      data := some d.nextBuffer
      free
      length := data.length
      header.data := hton connMagic ++ hton authType ++ hton result ++ hton data.length } with hm
  set d₀ : Conn :=
    { d with
      heap := Function.update d.heap d.nextBuffer (some data)
      nextBuffer := d.nextBuffer + 1
      message := m } with hd₀
  have hbusy₀ : Busy .writing maxlen log d₀ :=
    ⟨hbusy.state, hbusy.errno, hbusy.callback, hbusy.callbacks, hbusy.maxlen⟩
  have hcarries : Carries d₀ (headerBytes authType result data.length) data := by
    refine ⟨rfl, rfl, hsmall, ?_⟩
    rw [Conn.buffer_eq]
    simp [hd₀, hm]
  have hfits : Fits d₀ := by
    refine ⟨rfl, htrailer, lt_trans hsmall (by decide), fun _ => ?_⟩
    rw [if_neg (show d.state ≠ _ by rw [hbusy.state]; decide), Conn.buffer_eq]
    simp [hd₀, hm]
  have hcore : (iovInitHeader m .writing).core = m.core := core_iovInitHeader _ _
  set d₁ : Conn := { d₀ with message := iovInitHeader m .writing } with hd₁
  have hat : AtPos d₁.message d₁.state 0 := by
    have hinit : AtPos (iovInitHeader m .writing) .writing 0 := atPos_iovInitHeader hoff
    rw [show d₁.state = .writing from hbusy.state]
    exact hinit
  obtain ⟨d₂, hok, hkeeps, hsame, hbegun⟩ :=
    maybeUpdateMic_reset P (show d₁.state = .writing from hbusy.state) (.inr rfl)
  refine ⟨d₂, hok, .inl ⟨?_, ?_⟩⟩
  · unfold wire
    rw [length_append]
    exact lt_of_lt_of_le (by decide) (Nat.le_add_right headerLen _)
  refine ⟨(hbusy₀.of_core hcore).of_keeps hkeeps, (hcarries.of_core hcore).of_keeps hkeeps,
    hat.of_keeps hkeeps hsame, (hfits.of_core hcore).of_keeps hkeeps, ?_⟩
  -- the tokens are those of the connection
  have htoken : ∀ dir, d₁.message.token dir = c.message.token dir := fun dir =>
    (token_of_core hcore dir).trans (htokens dir)
  rw [htoken, htoken, h.writing] at hbegun
  rw [← h.reading]
  exact hbegun.pending

/-- `Unameit_Conn_Progress` is called again and again while a message is being written. -/
def sendCalls (P : Ciphers) : Conn → Stream → List (List Event) → Except Abort (Conn × Stream)
  | c, s, [] => .ok (c, s)
  | c, s, events :: calls =>
    if c.state = .writing then do
      let (c, s) ← connProgress P c s events
      sendCalls P c s calls
    else sendCalls P c s calls

/-- Any number of calls: what has been written is the message up to some position, and every call
that can write something does. -/
theorem SendState.calls (h : SendState P t r header data maxlen log c pos)
    {calls : List (List Event)} (hfail : ∀ events ∈ calls, .fail ∉ events) :
    ∃ d pos', sendCalls P c s calls =
        .ok (d, s.emit (part (wire P t header data) pos pos')) ∧
      pos ≤ pos' ∧ SendState P t r header data maxlen log d pos' ∧
      ((∀ events ∈ calls, Moves events) →
        min (pos + calls.length) (wire P t header data).length ≤ pos') := by
  induction calls generalizing c s pos with
  | nil =>
    refine ⟨c, pos, ?_, le_refl _, h, fun _ => min_le_left _ _⟩
    rw [part_self, Stream.emit_nil]
    rfl
  | cons events calls ih =>
    have hrest : ∀ events ∈ calls, .fail ∉ events := fun e he =>
      hfail e (mem_cons_of_mem _ he)
    unfold sendCalls
    rcases h with ⟨hlt, hsend⟩ | ⟨heq, hready⟩
    · obtain ⟨d, pos₁, hok, hle, hstate, hmoves⟩ := hsend.progress (s := s)
        (hfail events mem_cons_self)
      obtain ⟨d', pos', hok', hle', hstate', hmoves'⟩ := ih (s := s.emit
        (part (wire P t header data) pos pos₁)) hstate hrest
      refine ⟨d', pos', ?_, le_trans hle hle', hstate', fun hall => ?_⟩
      · rw [if_pos hsend.state, hok, ← part_append _ hle hle', ← Stream.emit_emit, ← hok']
        rfl
      · have hone := hmoves (hall events mem_cons_self) hlt
        have hmore := hmoves' fun e he => hall e (mem_cons_of_mem _ he)
        rw [length_cons]
        omega
    · rw [if_neg (by rw [hready.state]; decide)]
      obtain ⟨d', pos', hok', hle', hstate', -⟩ := ih (s := s) (.inr ⟨heq, hready⟩) hrest
      exact ⟨d', pos', hok', hle', hstate', fun _ => by omega⟩

end Wire
end Unameit
