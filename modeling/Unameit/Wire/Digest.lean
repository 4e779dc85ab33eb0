import Unameit.Wire.Round

/-!
# Wire.Digest — what a MIC is computed from

Between messages only three parts of a context matter: the key, the sequence number and the session
token (`Token`).  With the header and the data they determine the digest of a message, its trailer,
and the token for the next message.  The checksum is computed piece by piece; `Context.Sums` says how
far it has come.
-/

namespace Unameit
namespace Wire

open List
open Message

/-! ## Tokens -/

structure Token where
  key : Bytes
  seqno : ℕ
  sessid : Bytes
  deriving DecidableEq, Repr

def Context.token (ctx : Context) : Token :=
  ⟨ctx.key, ctx.seqno, ctx.sessid⟩

namespace Token

def stamp (t : Token) (header : Bytes) : Bytes :=
  t.key ++ hton t.seqno ++ header ++ (if 0 < t.seqno then t.sessid else [])

variable (P : Ciphers)

def digest (t : Token) (header data : Bytes) : Bytes :=
  P.md5 (t.stamp header ++ data)

def trailer (t : Token) (header data : Bytes) : Bytes :=
  P.encrypt t.key ((t.digest P header data).take desLen) ++
    P.encrypt t.key ((t.digest P header data).drop desLen)

def next (t : Token) (header data : Bytes) : Token :=
  ⟨t.key, (t.seqno + 1) % 2 ^ 32, if t.seqno = 0 then t.digest P header data else t.sessid⟩

def back (t : Token) (r : Option Token) (header data : Bytes) : Option Token :=
  if t.seqno = 0 then some ⟨t.key, 1, t.digest P header data⟩ else r

lemma length_trailer (t : Token) (header data : Bytes) :
    (t.trailer P header data).length = micLen :=
  length_halves (P.md5_length _) P.encrypt_length P.encrypt_length

end Token

/-! ## Checksums -/

structure Context.Sums (ctx : Context) (t : Token) (header data : Bytes) (e : ℕ) : Prop where
  token : ctx.token = t
  offset : ctx.offset = headerLen + e
  md5 : ctx.md5 = t.stamp header ++ data.take e
  final : ctx.final = false

variable {P : Ciphers} {c c' : Conn} {ctx : Context} {t : Token} {header data : Bytes} {e : ℕ}

lemma Context.start_sums (hoff : ctx.offset = 0) (htoken : ctx.token = t) :
    (ctx.start header).Sums t header data 0 := by
  subst htoken
  unfold Context.start
  rw [if_pos hoff]
  exact ⟨rfl, rfl, by rw [take_zero, append_nil]; rfl, rfl⟩

lemma Context.Sums.start (h : ctx.Sums t header data e) : ctx.start header = ctx := by
  exact if_neg (by rw [h.offset]; simp [headerLen])

/-- The data up to `stop` are checksummed. -/
theorem Context.Sums.update (h : ctx.Sums t header data e) {buffer : Bytes} {stop : ℕ}
    (hle : e ≤ stop) (hsmall : stop < 2 ^ 31) (hbuffer : buffer.take stop = data.take stop) :
    (ctx.update buffer stop).Sums t header data stop := by
  have hheader : headerLen = 16 := rfl
  have hstart : int32 ((ctx.offset : ℤ) - headerLen) = e := by
    rw [h.offset, int32_of_lt (by omega) (by omega)]
    omega
  unfold Context.update
  simp only [hstart]
  by_cases hlt : e < stop
  · rw [if_pos (by omega)]
    refine ⟨h.token, ?_, ?_, h.final⟩
    · show (((stop : ℤ) + headerLen) % 2 ^ 32).toNat = _
      omega
    · -- the bytes of the buffer are those of the data
      have hpiece : (buffer.drop e).take (stop - e) = (data.drop e).take (stop - e) := by
        have hsame := congrArg (drop e) hbuffer
        rwa [drop_take, drop_take] at hsame
      have hn : ((stop : ℤ) - e).toNat = stop - e := by omega
      rw [h.md5, Int.toNat_natCast, hn, hpiece, append_assoc, ← take_add,
        Nat.add_sub_cancel' hle]
  · have heq : e = stop := by omega
    rw [if_neg (by omega), ← heq]
    exact h

lemma Context.Sums.finish (h : ctx.Sums t header data data.length) :
    ctx.finish P =
      { ctx with
        digest := t.digest P header data
        final := true } := by
  unfold Context.finish
  rw [if_neg (by rw [h.final]; decide), h.md5, take_length]
  rfl

/-! ## The next message -/

def ConnState.other : ConnState → ConnState
  | .reading => .writing
  | _ => .reading

def Message.context (m : Message) : ConnState → Option Context
  | .reading => m.readCrypto.context
  | .writing => m.writeCrypto.context
  | _ => none

def Message.token (m : Message) (state : ConnState) : Option Token :=
  (m.context state).map Context.token

lemma hasMic_eq (hdir : c.state = .reading ∨ c.state = .writing) :
    c.message.hasMic c.state = (c.message.context c.state).isSome := by
  rcases hdir with h | h
  · simp [hasMic, context, h]
  · simp [hasMic, context, h]

/-- After a MIC: both directions have their token for what comes next. -/
theorem nextMic_spec {state : ConnState} (herr : c.errno = none) (h : c.state = state)
    (hdir : state = .reading ∨ state = .writing)
    (hdigest : ctx.digest = ctx.token.digest P header data) :
    ∃ c', nextMic c ctx = .ok c' ∧
      c'.message.context state = some
        { ctx with
          seqno := (ctx.seqno + 1) % 2 ^ 32
          sessid := if ctx.seqno = 0 then ctx.digest else ctx.sessid } ∧
      c'.message.token state = some (ctx.token.next P header data) ∧
      c'.message.token state.other =
        ctx.token.back P (c.message.token state.other) header data ∧
      c'.message.trailer = c.message.trailer ∧
      c'.message.readCrypto.micOk = c.message.readCrypto.micOk := by
  have hnone : c.errno.isSome = false := by rw [herr]; rfl
  unfold nextMic Token.next Token.back
  rw [← hdigest]
  rcases hdir with rfl | rfl
  · by_cases hzero : ctx.seqno = 0
    · simp [hzero, h, micEnable, hnone, Conn.setContext, context, token,
        ConnState.other, Context.token, bind, Except.bind]
    · simp [hzero, h, Conn.setContext, context, token, ConnState.other,
        Context.token]
  · by_cases hzero : ctx.seqno = 0
    · simp [hzero, h, micEnable, hnone, Conn.setContext, context, token,
        ConnState.other, Context.token, bind, Except.bind]
    · simp [hzero, h, Conn.setContext, context, token, ConnState.other,
        Context.token]

end Wire
end Unameit
