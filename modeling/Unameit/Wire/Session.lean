import Unameit.Wire.Transfer

/-!
# Wire.Session — two peers that check their messages

Two peers send each other messages in any order, and MICs are enabled at both ends when
`Unameit_DesMd5_Mic_Enable` is called.  The streams split the messages at will.  As long as no message
has 2^31 bytes or more, the tokens of the two ends agree after every message, every message carries
the trailer that belongs to its token, and it counts as genuine; a message that has been changed
counts as genuine if and only if its trailer still decrypts to its digest (`session_agrees`).
-/

namespace Unameit
namespace Wire

open List

variable {P : Ciphers} {c d : Conn} {t t' w r : Option Token} {header data trailer : Bytes}
  {maxlen : ℕ} {log : List ConnState}

/-! ## Tokens that agree -/

structure Token.Agree (t t' : Token) : Prop where
  key : t'.key = t.key
  seqno : t'.seqno = t.seqno
  sessid : 0 < t.seqno → t'.sessid = t.sessid

namespace Token

variable {a b : Token}

lemma Agree.refl (a : Token) : a.Agree a :=
  ⟨rfl, rfl, fun _ => rfl⟩

lemma Agree.stamp (h : a.Agree b) (header : Bytes) : b.stamp header = a.stamp header := by
  unfold Token.stamp
  rw [h.key, h.seqno]
  by_cases hpos : 0 < a.seqno
  · rw [if_pos hpos, if_pos hpos, h.sessid hpos]
  · rw [if_neg hpos, if_neg hpos]

lemma Agree.digest (h : a.Agree b) (header data : Bytes) :
    b.digest P header data = a.digest P header data := by
  unfold Token.digest
  rw [h.stamp]

lemma Agree.next (h : a.Agree b) (header data : Bytes) :
    b.next P header data = a.next P header data := by
  unfold Token.next
  rw [h.key, h.seqno, h.digest]
  by_cases hzero : a.seqno = 0
  · rw [if_pos hzero, if_pos hzero]
  · rw [if_neg hzero, if_neg hzero, h.sessid (Nat.pos_of_ne_zero hzero)]

lemma Agree.back (h : a.Agree b) (r : Option Token) (header data : Bytes) :
    b.back P r header data = a.back P r header data := by
  unfold Token.back
  rw [h.key, h.seqno, h.digest]

/-- The trailer of a message is genuine for the peer. -/
theorem Agree.genuine (h : a.Agree b) (header data : Bytes) :
    b.genuine P header data (a.trailer P header data) = true := by
  have hlen : (a.digest P header data).length = micLen := P.md5_length _
  have hfirst : ((a.digest P header data).take desLen).length = desLen := by
    rw [length_take, hlen]
    rfl
  have hsecond : ((a.digest P header data).drop desLen).length = desLen := by
    rw [length_drop, hlen]
    rfl
  refine decide_eq_true ⟨?_, ?_⟩
  · unfold Token.trailer
    rw [take_left' (P.encrypt_length hfirst), h.key, P.decrypt_encrypt hfirst, h.digest]
  · unfold Token.trailer
    rw [drop_left' (P.encrypt_length hfirst), h.key, P.decrypt_encrypt hsecond, h.digest]

end Token

def Matched : Option Token → Option Token → Prop
  | none, none => True
  | some t, some t' => t.Agree t'
  | _, _ => False

lemma Matched.refl (t : Option Token) : Matched t t := by
  cases t with
  | none => trivial
  | some t => exact Token.Agree.refl t

lemma Matched.cases (h : Matched t t') :
    (t = none ∧ t' = none) ∨ ∃ a b, t = some a ∧ t' = some b ∧ a.Agree b := by
  cases t with
  | none =>
    cases t' with
    | none => exact .inl ⟨rfl, rfl⟩
    | some b => exact h.elim
  | some a =>
    cases t' with
    | none => exact h.elim
    | some b => exact .inr ⟨a, b, rfl, rfl, h⟩

lemma Matched.isSome (h : Matched t t') : t'.isSome = t.isSome := by
  rcases h.cases with ⟨rfl, rfl⟩ | ⟨a, b, rfl, rfl, -⟩
  · rfl
  · rfl

lemma Matched.nextToken (h : Matched t t') (header data : Bytes) :
    nextToken P t' header data = nextToken P t header data := by
  rcases h.cases with ⟨rfl, rfl⟩ | ⟨a, b, rfl, rfl, hab⟩
  · rfl
  · exact congrArg some (hab.next header data)

/-- The tokens for the other direction. -/
theorem Matched.backToken (h : Matched t t') {r' : Option Token} (hr : Matched r' r)
    (header data : Bytes) :
    Matched (backToken P t' r' header data) (backToken P t r header data) := by
  rcases h.cases with ⟨rfl, rfl⟩ | ⟨a, b, rfl, rfl, hab⟩
  · exact hr
  · show Matched (b.back P r' header data) (a.back P r header data)
    rw [hab.back]
    unfold Token.back
    split_ifs
    · exact Matched.refl _
    · exact hr

lemma Matched.accepted (h : Matched t t') (header data : Bytes) :
    accepted P t' header data (t.elim [] fun t => t.trailer P header data) = true := by
  rcases h.cases with ⟨rfl, rfl⟩ | ⟨a, b, rfl, rfl, hab⟩
  · rfl
  · exact hab.genuine header data

/-! ## Peers -/

structure Peers where
  first : Conn
  second : Conn

/-- A message from one peer to the other: how the writes of the sender end, and how many bytes
arrive before each call of the receiver and how its reads end. -/
structure Exchange where
  forward : Bool
  data : Bytes
  authType : ℕ
  result : ℕ
  free : FreeProc
  writes : List (List Event)
  reads : List (ℕ × List Event)

def Peers.sender (p : Peers) (forward : Bool) : Conn :=
  if forward then p.first else p.second

def Peers.receiver (p : Peers) (forward : Bool) : Conn :=
  if forward then p.second else p.first

def Peers.of (forward : Bool) (c d : Conn) : Peers :=
  if forward then ⟨c, d⟩ else ⟨d, c⟩

def deliver : Bytes → List (ℕ × List Event) → List (Bytes × List Event)
  | _, [] => []
  | b, (n, events) :: reads => (b.take n, events) :: deliver (b.drop n) reads

def Stream.idle : Stream :=
  ⟨[], false, []⟩

/-- A message is sent and received.  The two sides have nothing in common but the bytes that have
been sent, so that it does not matter in which order their calls are made. -/
def exchange (P : Ciphers) (p : Peers) (x : Exchange) : Except Abort (Peers × Bytes) := do
  let c ← connWrite P (p.sender x.forward) x.data x.authType x.result x.free
  let (c, s) ← sendCalls P c Stream.idle x.writes
  let d ← connPoll P (p.receiver x.forward)
  let (d, _) ← receiveCalls P d Stream.idle (deliver s.output x.reads)
  return (Peers.of x.forward c d, s.output)

def enable (p : Peers) (forward : Bool) (key : Bytes) : Except Abort Peers := do
  let c ← micEnable (p.sender forward) key .writing 0
  let d ← micEnable (p.receiver forward) key .reading 0
  return Peers.of forward c d

def Peers.Done (p : Peers) : Prop :=
  p.first.state = .iodone ∧ p.second.state = .iodone

/-- The message is of a size that both ends can deal with, and no I/O fails. -/
structure Exchange.Sized (x : Exchange) (p : Peers) : Prop where
  small : x.data.length < 2 ^ 31
  max : (p.receiver x.forward).message.maxlen = 0 ∨
    x.data.length ≤ (p.receiver x.forward).message.maxlen
  writes : ∀ events ∈ x.writes, .fail ∉ events
  reads : ∀ call ∈ x.reads, .fail ∉ call.2

/-- What two peers do: send messages one after the other, read what they have received, and enable
MICs. -/
inductive Session (P : Ciphers) (p : Peers) : Peers → Prop
  | start : Session P p p
  | message {q q' : Peers} {b : Bytes} (x : Exchange) (h : Session P p q) (sized : x.Sized q)
    (ok : exchange P q x = .ok (q', b)) (done : q'.Done) : Session P p q'
  | read {q : Peers} (forward : Bool) (h : Session P p q) :
    Session P p (Peers.of forward (q.sender forward) (connRead (q.receiver forward)).2)
  | enable {q q' : Peers} (forward : Bool) (key : Bytes) (h : Session P p q)
    (ok : enable q forward key = .ok q') : Session P p q'

/-- The bytes of a message: the header, the data, and the trailer for the token of the sender. -/
def Exchange.sent (P : Ciphers) (x : Exchange) (p : Peers) : Bytes :=
  wire P ((p.sender x.forward).message.token .writing)
    (headerBytes x.authType x.result x.data.length) x.data

/-- All operations transfer something, and there are enough of them for `n` bytes: on the side of
the receiver, after all the bytes have arrived. -/
structure Exchange.Enough (x : Exchange) (n : ℕ) : Prop where
  writes : ∀ events ∈ x.writes, Moves events
  many : n ≤ x.writes.length
  reads : ∃ calls more, x.reads = calls ++ more ∧ n ≤ (calls.map Prod.fst).sum ∧
    n ≤ more.length ∧ ∀ call ∈ more, Moves call.2

/-- The tokens of the two ends agree, for both directions. -/
def Peers.Agree (p : Peers) : Prop :=
  ∀ forward, Matched ((p.sender forward).message.token .writing)
    ((p.receiver forward).message.token .reading)

/-- Neither end is in the middle of a message, and the tokens agree. -/
structure Peers.Paired (p : Peers) : Prop where
  first : ∃ w r maxlen log, Ready w r maxlen log p.first
  second : ∃ w r maxlen log, Ready w r maxlen log p.second
  agree : p.Agree

/-! ## Steps -/

lemma deliver_append (b : Bytes) (reads more : List (ℕ × List Event)) :
    deliver b (reads ++ more) =
      deliver b reads ++ deliver (b.drop (reads.map Prod.fst).sum) more := by
  induction reads generalizing b with
  | nil => rfl
  | cons call reads ih =>
    simp only [cons_append, deliver, ih, drop_drop, map_cons, sum_cons]

lemma arrivals_deliver (b : Bytes) (reads : List (ℕ × List Event)) :
    arrivals (deliver b reads) = b.take (reads.map Prod.fst).sum := by
  induction reads generalizing b with
  | nil => rfl
  | cons call reads ih =>
    obtain ⟨n, events⟩ := call
    have hcons : arrivals (deliver b ((n, events) :: reads)) =
        b.take n ++ arrivals (deliver (b.drop n) reads) := rfl
    rw [hcons, ih, map_cons, sum_cons, take_add]

lemma length_deliver (b : Bytes) (reads : List (ℕ × List Event)) :
    (deliver b reads).length = reads.length := by
  induction reads generalizing b with
  | nil => rfl
  | cons call reads ih =>
    obtain ⟨n, events⟩ := call
    exact congrArg (· + 1) (ih (b.drop n))

lemma events_of_mem_deliver {b : Bytes} {reads : List (ℕ × List Event)}
    {call : Bytes × List Event} (h : call ∈ deliver b reads) : ∃ n, (n, call.2) ∈ reads := by
  induction reads generalizing b with
  | nil => exact absurd h not_mem_nil
  | cons first reads ih =>
    obtain ⟨n, events⟩ := first
    rcases mem_cons.1 h with rfl | hmem
    · exact ⟨n, mem_cons_self⟩
    · obtain ⟨k, hk⟩ := ih hmem
      exact ⟨k, mem_cons_of_mem _ hk⟩

/-- `Unameit_Conn_Read` leaves the tokens as they are. -/
theorem Ready.read (h : Ready w r maxlen log c) : Ready w r maxlen log (connRead c).2 := by
  have hnone : Ready w r maxlen log
      { c with
        message.data := none
        message.free := .static } :=
    ⟨h.errno, h.state, h.callback, h.callbacks, h.maxlen, h.header, h.trailer, h.writing, h.reading⟩
  obtain ⟨d, hnew, hbusy, -, -, hheader, htrailer, htokens⟩ := newstate_of_ready hnone .iodone
  unfold connRead
  rw [if_neg (by rw [h.errno]; simp)]
  show Ready w r maxlen log (newstate _ .iodone)
  rw [hnew]
  exact ⟨hbusy.errno, hbusy.state, hbusy.callback, hbusy.callbacks, hbusy.maxlen, hheader, htrailer,
    (htokens _).trans h.writing, (htokens _).trans h.reading⟩

/-- `Unameit_DesMd5_Mic_Enable` for messages that are sent. -/
theorem Ready.enable_writing (h : Ready w r maxlen log c) (key : Bytes) :
    ∃ d, micEnable c key .writing 0 = .ok d ∧ Ready (some ⟨key, 0, []⟩) r maxlen log d := by
  unfold micEnable
  rw [if_neg (by rw [h.errno]; simp), if_neg (by rw [h.state]; decide)]
  exact ⟨_, rfl, h.errno, h.state, h.callback, h.callbacks, h.maxlen, h.header, h.trailer, rfl,
    h.reading⟩

/-- `Unameit_DesMd5_Mic_Enable` for messages that are received. -/
theorem Ready.enable_reading (h : Ready w r maxlen log c) (key : Bytes) :
    ∃ d, micEnable c key .reading 0 = .ok d ∧ Ready w (some ⟨key, 0, []⟩) maxlen log d := by
  unfold micEnable
  rw [if_neg (by rw [h.errno]; simp), if_neg (by rw [h.state]; decide)]
  exact ⟨_, rfl, h.errno, h.state, h.callback, h.callbacks, h.maxlen, h.header, h.trailer,
    h.writing, rfl⟩

/-! ## Pairs of connections -/

section Pairs

variable {p q : Peers} {forward : Bool}

@[simp] lemma Peers.receiver_of (forward : Bool) (c d : Conn) :
    (Peers.of forward c d).receiver forward = d := by
  cases forward with
  | false => rfl
  | true => rfl

lemma Peers.done_of : (Peers.of forward c d).Done ↔ c.state = .iodone ∧ d.state = .iodone := by
  cases forward with
  | false => exact and_comm
  | true => exact Iff.rfl

lemma Peers.Paired.ready (h : p.Paired) (forward : Bool) :
    (∃ w r maxlen log, Ready w r maxlen log (p.sender forward)) ∧
      ∃ w r maxlen log, Ready w r maxlen log (p.receiver forward) := by
  cases forward with
  | false => exact ⟨h.second, h.first⟩
  | true => exact ⟨h.first, h.second⟩

/-- The tokens for messages from the receiver to the sender. -/
theorem Peers.Paired.back (h : p.Paired) (forward : Bool) :
    Matched ((p.receiver forward).message.token .writing)
      ((p.sender forward).message.token .reading) := by
  cases forward with
  | false => exact h.agree true
  | true => exact h.agree false

lemma Peers.Paired.of_ready {w' r' : Option Token} {maxlen' : ℕ} {log' : List ConnState}
    (hc : Ready w r maxlen log c) (hd : Ready w' r' maxlen' log' d) (h : Matched w r')
    (hback : Matched w' r) : (Peers.of forward c d).Paired := by
  rw [← hc.writing, ← hd.reading] at h
  rw [← hd.writing, ← hc.reading] at hback
  cases forward with
  | false =>
    refine ⟨⟨_, _, _, _, hd⟩, ⟨_, _, _, _, hc⟩, fun forward => ?_⟩
    cases forward with
    | false => exact h
    | true => exact hback
  | true =>
    refine ⟨⟨_, _, _, _, hc⟩, ⟨_, _, _, _, hd⟩, fun forward => ?_⟩
    cases forward with
    | false => exact hback
    | true => exact h

lemma paired_fresh : (Peers.of true Conn.fresh Conn.fresh).Paired :=
  Peers.Paired.of_ready ready_fresh ready_fresh trivial trivial

lemma Peers.Paired.read (h : p.Paired) (forward : Bool) :
    (Peers.of forward (p.sender forward) (connRead (p.receiver forward)).2).Paired := by
  obtain ⟨⟨w, r, maxlen, log, hc⟩, w', r', maxlen', log', hd⟩ := h.ready forward
  have hagree := h.agree forward
  have hback := h.back forward
  rw [hc.writing, hd.reading] at hagree
  rw [hd.writing, hc.reading] at hback
  exact Peers.Paired.of_ready hc hd.read hagree hback

lemma Peers.Paired.enable (h : p.Paired) (forward : Bool) (key : Bytes) :
    ∃ q, Wire.enable p forward key = .ok q ∧ q.Paired := by
  obtain ⟨⟨w, r, maxlen, log, hc⟩, w', r', maxlen', log', hd⟩ := h.ready forward
  have hback := h.back forward
  rw [hd.writing, hc.reading] at hback
  obtain ⟨c', hok, hc'⟩ := hc.enable_writing key
  obtain ⟨d', hok', hd'⟩ := hd.enable_reading key
  refine ⟨Peers.of forward c' d', ?_, Peers.Paired.of_ready hc' hd' (Matched.refl _) hback⟩
  unfold Wire.enable
  rw [hok, hok']
  rfl

/-! ## Messages -/

lemma Exchange.exists_split (x : Exchange) (n : ℕ) :
    ∃ calls more, x.reads = calls ++ more ∧ (x.Enough n → n ≤ (calls.map Prod.fst).sum ∧
      n ≤ more.length ∧ ∀ call ∈ more, Moves call.2) := by
  by_cases h : x.Enough n
  · obtain ⟨calls, more, hreads, hrest⟩ := h.reads
    exact ⟨calls, more, hreads, fun _ => hrest⟩
  · exact ⟨x.reads, [], (append_nil _).symm, fun h' => absurd h' h⟩

/-- A message between peers that are paired. -/
theorem Peers.Paired.message (h : p.Paired) (x : Exchange) (hx : x.Sized p) :
    ∃ q b, exchange P p x = .ok (q, b) ∧ b <+: x.sent P p ∧
      (q.Done → b = x.sent P p ∧ q.Paired ∧
        (q.receiver x.forward).message.readCrypto.micOk = true) ∧
      (x.Enough (x.sent P p).length → q.Done) := by
  obtain ⟨⟨t, r, maxlen, log, hc⟩, r', t', maxlen', log', hd⟩ := h.ready x.forward
  have hagree := h.agree x.forward
  have hback := h.back x.forward
  have hmax := hx.max
  rw [hc.writing, hd.reading] at hagree
  rw [hd.writing, hc.reading] at hback
  rw [hd.maxlen] at hmax
  have hsent : x.sent P p =
      wire P t (headerBytes x.authType x.result x.data.length) x.data := by
    unfold Exchange.sent
    rw [hc.writing]
  rw [hsent]
  -- the sender
  obtain ⟨c₁, hwrite, hsend⟩ := hc.write (P := P) x.data x.authType x.result x.free hx.small
  obtain ⟨c₂, k, hcalls, -, hstate, hmoves⟩ := hsend.calls (s := Stream.idle) hx.writes
  set header := headerBytes x.authType x.result x.data.length with hheader
  set trailer := t.elim [] fun t => t.trailer P header x.data with htrailer
  -- the receiver
  have hlen : trailer.length = if t'.isSome then micLen else 0 := by
    rw [hagree.isSome]
    exact length_elim_trailer P t header x.data
  set y : Incoming := ⟨header, x.data, trailer, maxlen', log'⟩
  have hframe : y.Framed t' := frame_of_sent t' x.authType x.result hx.small hmax hlen
  obtain ⟨d₁, hpoll, hrecv⟩ := Ready.poll (P := P) (x := y) hd hframe
  obtain ⟨calls, more, hreads, henough⟩ := x.exists_split (wire P t header x.data).length
  set b := (wire P t header x.data).take k with hb
  have hdeliver : deliver b x.reads =
      deliver b calls ++ deliver (b.drop (calls.map Prod.fst).sum) more := by
    rw [hreads, deliver_append]
  have hinput : Stream.idle.input ++
      arrivals (deliver b calls ++ deliver (b.drop (calls.map Prod.fst).sum) more) <+:
        y.bytes.drop 0 ++ [] := by
    rw [← hdeliver, arrivals_deliver, append_nil]
    exact List.IsPrefix.trans ( take_prefix _ _) ( take_prefix _ _)
  have hfail : ∀ call ∈ deliver b calls ++ deliver (b.drop (calls.map Prod.fst).sum) more,
      .fail ∉ call.2 := by
    intro call hcall
    rw [← hdeliver] at hcall
    obtain ⟨n, hn⟩ := events_of_mem_deliver hcall
    exact hx.reads _ hn
  obtain ⟨d₂, pos, hcallreads, hfinish⟩ := hrecv.finishes hframe hinput rfl hfail
  have hrun : exchange P p x = .ok (Peers.of x.forward c₂ d₂, b) := by
    unfold Wire.exchange
    rw [hwrite]
    show (do
      let (c, s) ← sendCalls P c₁ Stream.idle x.writes
      let d ← connPoll P (p.receiver x.forward)
      let (d, _) ← receiveCalls P d Stream.idle (deliver s.output x.reads)
      return (Peers.of x.forward c d, s.output)) = _
    rw [hcalls, hpoll]
    show (do
      let (d, _) ← receiveCalls P d₁ Stream.idle (deliver b x.reads)
      return (Peers.of x.forward c₂ d, b)) = _
    rw [hdeliver, hcallreads.ok]
    rfl
  refine ⟨Peers.of x.forward c₂ d₂, b, hrun, take_prefix _ _, fun hdone => ?_, fun hx' => ?_⟩
  · rw [Peers.done_of] at hdone
    rcases hstate with ⟨-, hsending⟩ | ⟨hk, hready⟩
    · exact absurd (hsending.state.symm.trans hdone.1) (by decide)
    rcases hcallreads.state with ⟨-, hreceiving⟩ | ⟨-, hcomplete⟩
    · exact absurd (hreceiving.busy.state.symm.trans hdone.2) (by decide)
    have haccepted : accepted P t' header x.data trailer = true := hagree.accepted header x.data
    have hready' := hcomplete.ready
    rw [haccepted, hagree.nextToken] at hready'
    refine ⟨?_, Peers.Paired.of_ready hready hready' (Matched.refl _)
      (hagree.backToken hback header x.data), ?_⟩
    · rw [hb, hk, take_length]
    · rw [Peers.receiver_of, hcomplete.micOk, haccepted]
  · obtain ⟨hsum, hmany, hall⟩ := henough hx'
    have hk : k = (wire P t header x.data).length := by
      have hge := hmoves hx'.writes
      have hmany' := hx'.many
      rcases hstate with ⟨hlt, -⟩ | ⟨heq, -⟩
      · omega
      · exact heq
    have hpos : pos = y.bytes.length := by
      refine hfinish ?_ ?_ ?_
      · rw [arrivals_deliver, hb, hk, take_length, take_of_length_le hsum]
        exact prefix_refl _
      · intro call hcall
        obtain ⟨n, hn⟩ := events_of_mem_deliver hcall
        exact hall _ hn
      · rw [length_deliver]
        exact hmany
    rw [Peers.done_of]
    constructor
    · rcases hstate with ⟨hlt, -⟩ | ⟨-, hready⟩
      · omega
      · exact hready.state
    · rcases hcallreads.state with ⟨hlt, -⟩ | ⟨-, hcomplete⟩
      · omega
      · exact hcomplete.ready.state

/-! ## Sessions -/

/-- After every step of a session the peers are paired. -/
theorem Session.paired (hp : p.Paired) (h : Session P p q) : q.Paired := by
  induction h with
  | start => exact hp
  | message x _ sized ok done ih =>
    obtain ⟨q', b, hok, -, hdone, -⟩ := ih.message (P := P) x sized
    rw [hok] at ok
    cases ok
    exact (hdone done).2.1
  | read forward _ ih => exact ih.read forward
  | enable forward key _ ok ih =>
    obtain ⟨q', hok, hpaired⟩ := ih.enable forward key
    rw [hok] at ok
    cases ok
    exact hpaired

/-- Whatever message is received with a MIC, it counts as genuine if and only if its trailer decrypts
to the digest for the token that is expected. -/
def Checks (P : Ciphers) (c : Conn) : Prop :=
  ∀ t header data trailer, c.message.token .reading = some t →
    Frame (some t) c.message.maxlen header data trailer →
    ∃ c₁, connPoll P c = .ok c₁ ∧
      ∀ (s : Stream) (calls more : List (Bytes × List Event)) (rest : Bytes), s.closed = false →
        s.input ++ arrivals (calls ++ more) <+: header ++ (data ++ trailer) ++ rest →
        (∀ call ∈ calls ++ more, .fail ∉ call.2) →
        ∃ c' s', receiveCalls P c₁ s (calls ++ more) = .ok (c', s') ∧
          (c'.state = .iodone →
            c'.message.readCrypto.micOk = t.genuine P header data trailer) ∧
          (header ++ (data ++ trailer) <+: s.input ++ arrivals calls →
            (∀ call ∈ more, Moves call.2) → (header ++ (data ++ trailer)).length ≤ more.length →
            c'.state = .iodone)

lemma Ready.checks (h : Ready w r maxlen log c) : Checks P c := by
  intro t header data trailer ht hframe
  have hr : r = some t := h.reading.symm.trans ht
  subst hr
  rw [h.maxlen] at hframe
  set x : Incoming := ⟨header, data, trailer, maxlen, log⟩
  obtain ⟨c₁, hpoll, hrecv⟩ := Ready.poll (P := P) (x := x) h hframe
  refine ⟨c₁, hpoll, fun s calls more rest hopen hinput hfail => ?_⟩
  obtain ⟨c', k, hreads, hfinish⟩ := hrecv.finishes hframe hinput hopen hfail
  refine ⟨c', _, hreads.ok, fun hdone => ?_, fun hwhole hmoves hmany => ?_⟩
  · rcases hreads.state with ⟨-, hreceiving⟩ | ⟨-, hcomplete⟩
    · exact absurd (hreceiving.busy.state.symm.trans hdone) (by decide)
    · exact hcomplete.micOk
  · have hk := hfinish hwhole hmoves hmany
    rcases hreads.state with ⟨hlt, -⟩ | ⟨-, hcomplete⟩
    · exact absurd hk (ne_of_lt hlt)
    · exact hcomplete.ready.state

/-- In every session whose messages have less than 2^31 bytes: the tokens of the two ends agree, the
next message, however it is split, carries the trailer for them and counts as genuine, and a message
that has been changed is checked against them. -/
theorem session_agrees (hp : p.Paired) (h : Session P p q) :
    q.Agree ∧
      (∀ x : Exchange, x.Sized q → ∃ q' b, exchange P q x = .ok (q', b) ∧ b <+: x.sent P q ∧
        (q'.Done → b = x.sent P q ∧ q'.Agree ∧
          (q'.receiver x.forward).message.readCrypto.micOk = true) ∧
        (x.Enough (x.sent P q).length → q'.Done)) ∧
      ∀ forward, Checks P (q.receiver forward) := by
  have hq := h.paired hp
  refine ⟨hq.agree, fun x hx => ?_, fun forward => ?_⟩
  · obtain ⟨q', b, hok, hsub, hdone, henough⟩ := hq.message (P := P) x hx
    refine ⟨q', b, hok, hsub, fun hd => ?_, henough⟩
    obtain ⟨hsent, hpaired, hmic⟩ := hdone hd
    exact ⟨hsent, hpaired.agree, hmic⟩
  · obtain ⟨-, w, r, maxlen, log, hready⟩ := hq.ready forward
    exact hready.checks

def micPeers (key : Bytes) : Peers :=
  ⟨{ Conn.fresh with message.writeCrypto.context := some ⟨0, 0, key, [], [], [], false⟩ },
    { Conn.fresh with message.readCrypto.context := some ⟨0, 0, key, [], [], [], false⟩ }⟩

lemma session_micPeers (key : Bytes) : Session P ⟨Conn.fresh, Conn.fresh⟩ (micPeers key) :=
  .enable true key .start rfl

def greeting : Exchange :=
  ⟨true, [104, 105], 0, 0, .static, List.replicate 34 [.some 6],
    (34, []) :: List.replicate 34 (0, [.some 4])⟩

def greetingKey : Bytes := [0x01, 0x23, 0x45, 0x67, 0x89, 0xab, 0xcd, 0xef]

/-- The MD5 checksum of the key, the sequence number, the header and the data of the greeting. -/
def greetingDigest : Bytes :=
  [0x09, 0xdc, 0xcd, 0x5b, 0xb7, 0x7b, 0xfe, 0xa4, 0xfd, 0x65, 0x88, 0x0f, 0x2f, 0xf9, 0x87, 0x50]

/-- The two blocks of the checksum, encrypted by DES. -/
def greetingMic : Bytes :=
  [0x71, 0x7c, 0xe1, 0x63, 0x8f, 0xb7, 0x94, 0xad, 0x79, 0x26, 0x6d, 0x53, 0xce, 0xee, 0x13, 0x85]

def greetingBlocks : Equiv.Perm Bytes :=
  Equiv.swap (greetingDigest.take desLen) (greetingMic.take desLen) *
    Equiv.swap (greetingDigest.drop desLen) (greetingMic.drop desLen)

lemma length_greetingBlocks {b : Bytes} (h : b.length = desLen) :
    (greetingBlocks b).length = desLen ∧ (greetingBlocks.symm b).length = desLen := by
  have hswap : ∀ {x y b : Bytes}, x.length = desLen → y.length = desLen → b.length = desLen →
      (Equiv.swap x y b).length = desLen := by
    intro x y b hx hy hb
    rw [Equiv.swap_apply_def]
    split_ifs
    · exact hy
    · exact hx
    · exact hb
  exact ⟨hswap rfl rfl (hswap rfl rfl h), hswap rfl rfl (hswap rfl rfl h)⟩

/-- MD5 and DES have these values where they are applied in the exchange of the greeting. -/
def Ciphers.greeting : Ciphers where
  md5 b := if b = greetingKey ++ hton 0 ++ headerBytes 0 0 2 ++ [104, 105] then greetingDigest
    else replicate micLen 0
  md5_length b := by split_ifs <;> rfl
  encrypt key b := if key = greetingKey then greetingBlocks b else b
  decrypt key b := if key = greetingKey then greetingBlocks.symm b else b
  encrypt_length h := by
    split_ifs
    · exact (length_greetingBlocks h).1
    · exact h
  decrypt_length h := by
    split_ifs
    · exact (length_greetingBlocks h).2
    · exact h
  decrypt_encrypt _ := by split_ifs <;> simp

theorem session_agrees_greeting : ∃ q b,
    exchange Ciphers.greeting (micPeers greetingKey) greeting = .ok (q, b) ∧ q.Done ∧
      b = headerBytes 0 0 2 ++ [104, 105] ++ greetingMic ∧ q.Agree ∧
      q.second.message.readCrypto.micOk = true := by
  have hsized : greeting.Sized (micPeers greetingKey) := ⟨by decide, .inl rfl, by decide, by decide⟩
  have hsent : greeting.sent Ciphers.greeting (micPeers greetingKey) =
      headerBytes 0 0 2 ++ [104, 105] ++ greetingMic := by decide +kernel
  have henough : greeting.Enough 34 := by
    refine ⟨fun events h => ?_, by decide, [(34, [])],
      replicate 34 (0, [.some 4]), rfl, by decide, by decide, fun call h => ?_⟩
    · rw [eq_of_mem_replicate h]
      exact ⟨6, [], rfl⟩
    · rw [eq_of_mem_replicate h]
      exact ⟨4, [], rfl⟩
  obtain ⟨q, b, hok, -, hdone, hfinish⟩ :=
    (session_agrees paired_fresh (session_micPeers greetingKey)).2.1 greeting hsized
  rw [hsent] at hdone hfinish
  have hq := hfinish henough
  exact ⟨q, b, hok, hq, hdone hq⟩

end Pairs

/-! ## Messages of 2^31 bytes and more -/

/-- The number of bytes that are left is an `int`: it is negative here after the first packet. -/
theorem slideWindow_oversize (hstate : c.state = .writing) (hmic : c.message.hasMic .writing = true)
    (hoff : c.message.header.offset = 0) (hlen : c.message.length = 2 ^ 31 + 8192) :
    slideWindow c 4096 = .error .assertion := by
  have htail : int32 ((headerLen : ℤ) - c.message.header.offset - 4096) = -4080 := by
    rw [hoff]
    decide
  unfold slideWindow
  simp only [htail, hstate]
  rw [if_pos (by rw [hoff]; decide)]
  set m : Message := iovInitData { c.message with header.offset := headerLen } .writing with hm
  obtain ⟨ho, hl, hmic'⟩ : m.offset = 0 ∧ m.length = 2 ^ 31 + 8192 ∧
      m.hasMic .writing = true := by
    rw [hm]
    unfold iovInitData
    rw [if_pos (by rw [show (Message.length _) = _ from hlen]; decide)]
    exact ⟨rfl, hlen, hmic⟩
  have hdata : slideData m .writing 4080 = .error .assertion := by
    unfold slideData
    have htail : int32 ((m.length : ℤ) - m.offset - 4080) = -2147479536 := by
      rw [hl, ho]
      decide
    simp only [htail]
    rw [if_neg (by decide), if_pos (by rw [hl, ho]; decide)]
    obtain ⟨h0, hn⟩ : (iovInitTrailer { m with offset := m.length } .writing).trailer.offset = 0 ∧
        (iovInitTrailer { m with offset := m.length } .writing).nvec ≠ 0 := by
      unfold iovInitTrailer
      rw [if_pos (show Message.hasMic { m with offset := m.length } .writing = true from hmic')]
      exact ⟨rfl, Nat.succ_ne_zero _⟩
    unfold slideTrailer
    rw [if_neg hn]
    simp only [h0]
    rfl
  rw [show int32 (-(-4080)) = 4080 by decide, hdata]
  rfl

/-- The first write takes a whole packet. -/
theorem progressRound_oversize {s : Stream} {b : ℕ} {ctx : Context} (hstate : c.state = .writing)
    (hcontext : c.message.writeCrypto.context = some ctx) (hoff : c.message.header.offset = 0)
    (hoffset : c.message.offset = 0) (hlen : c.message.length = 2 ^ 31 + 8192)
    (hnvec : c.message.nvec = 2) (hfirst : c.message.iov 0 = ⟨.header, 0, 16⟩)
    (hsecond : c.message.iov 1 = ⟨.data b, 0, 4080⟩) (hheader : c.message.header.data.length = 16)
    (hdata : c.heap b = some data) (hlong : 4080 ≤ data.length) :
    progressRound P c s [.some 8191] = .error .assertion := by
  have hmic : c.message.hasMic .writing = true := by
    simp [Message.hasMic, hcontext]
  -- the checksum goes on
  have hupdate : ∃ ctx', maybeUpdateMic P c false = .ok (c.setContext ctx' .writing) := by
    have hend : micEnd c.message .writing = 4080 := by
      have hwhole : 0 < c.message.length := by omega
      unfold micEnd
      simp only [hoff, hoffset, hsecond]
      rw [if_pos ⟨by decide, hwhole⟩]
      rfl
    unfold maybeUpdateMic updateMic
    rw [hstate, if_pos hmic]
    simp only [hcontext, if_neg (show ConnState.writing ≠ .reading by decide), if_true]
    unfold updateMicWith
    simp only [hstate, hend]
    rw [if_neg (by decide), if_neg (fun h => absurd h.2.1 (by decide)), if_pos (by omega)]
    exact ⟨_, rfl⟩
  obtain ⟨ctx', hok⟩ := hupdate
  set d := (c.setContext ctx' .writing).hand with hd
  have hwritev : ∃ out, streamWritev d s [.some 8191] = (4096, out, []) := by
    have hn : ¬ (d.message.nvec = 1 ∨ maxCopySize < (d.message.iov 0).len) := by
      show ¬ (c.message.nvec = 1 ∨ maxCopySize < (c.message.iov 0).len)
      rw [hnvec, hfirst]
      decide
    have hvectors : d.message.vectors = [⟨.header, 0, 16⟩, ⟨.data b, 0, 4080⟩] := by
      show (range c.message.nvec).map c.message.iov = _
      rw [hnvec, ← hfirst, ← hsecond]
      rfl
    have hgather : (gather d d.message.vectors maxCopySize).length = 4096 := by
      have h1 : (d.fetch ⟨.header, 0, 16⟩).length = 16 := by
        show ((c.message.header.data.drop 0).take 16).length = 16
        rw [drop_zero, length_take, hheader, Nat.min_self]
      have h2 : (d.fetch ⟨.data b, 0, 4080⟩).length = 4080 := by
        show ((((c.heap b).getD []).drop 0).take 4080).length = 4080
        rw [hdata, Option.getD_some, drop_zero, length_take]
        omega
      rw [hvectors]
      simp [gather, h1, h2, maxCopySize]
    unfold streamWritev
    rw [if_neg hn]
    simp only [send]
    rw [take_of_length_le (by omega), hgather]
    exact ⟨_, rfl⟩
  obtain ⟨out, hout⟩ := hwritev
  unfold progressRound
  rw [if_pos hstate, hok]
  simp only [bind, Except.bind, ← hd, hout]
  unfold afterIo
  have hmic' : d.message.hasMic .writing = true := by
    simp [hd, Conn.hand, Conn.setContext, Message.hasMic]
  rw [slideWindow_oversize (c := d) hstate hmic' hoff hlen]
  rfl

lemma iovInitHeader_of_lt {m : Message} (h : connPktLen - headerLen < m.length) :
    iovInitHeader m .writing =
      { m with
        header.offset := 0
        offset := 0
        iov := Function.update (Function.update m.iov 0 ⟨.header, 0, headerLen⟩) 1
          ⟨m.dataRegion, 0, connPktLen - headerLen⟩
        nvec := 2 } := by
  unfold iovInitHeader iovInitData
  simp only [if_true]
  rw [if_pos h]
  rfl

/-- A peer that sends more than 2^31 bytes stops with a failed assertion. -/
theorem exchange_oversize (key : Bytes) (hlen : data.length = 2 ^ 31 + 8192)
    (reads : List (ℕ × List Event)) :
    exchange P (micPeers key) ⟨true, data, 0, 0, .static, [[.some 8191]], reads⟩ =
      .error .assertion := by
  have hmod : data.length % 2 ^ 32 = data.length := Nat.mod_eq_of_lt (by omega)
  have hwrite : ∃ c, connWrite P (micPeers key).first data 0 0 .static = .ok c ∧ c.errno = none ∧
      c.callback = true ∧ c.message.nvec ≠ 0 ∧ c.state = .writing ∧
      progressRound P c Stream.idle [.some 8191] = .error .assertion := by
    unfold connWrite
    simp only
    have herr : (newstate (micPeers key).first .writing).errno.isSome = false := rfl
    rw [hmod,
      iovInitHeader_of_lt (by show _ < data.length; rw [hlen]; decide)]
    refine ⟨_, rfl, rfl, rfl, Nat.succ_ne_zero _, rfl, ?_⟩
    exact progressRound_oversize rfl rfl rfl rfl hlen rfl rfl rfl rfl rfl (by omega)
  obtain ⟨c, hok, herr, hcall, hnvec, hstate, hround⟩ := hwrite
  show ((connWrite P (micPeers key).first data 0 0 .static) >>= _) = _
  rw [hok]
  show (sendCalls P c Stream.idle [[.some 8191]] >>= _) = _
  unfold sendCalls
  rw [if_pos hstate]
  unfold connProgress
  rw [if_neg (by rw [herr]; simp), if_neg (by rw [hcall]; simp), if_pos (.inl hstate)]
  unfold progressLoop
  rw [if_neg hnvec, hround]
  rfl

/-- The first message of a session can stop the sender, whatever DES and MD5 are. -/
theorem session_aborts_of_oversize : ∃ (q : Peers) (x : Exchange),
    x.data.length = 2 ^ 31 + 8192 ∧ (q.receiver x.forward).message.maxlen = 0 ∧
      ∀ P, Session P ⟨Conn.fresh, Conn.fresh⟩ q ∧ exchange P q x = .error .assertion :=
  ⟨micPeers greetingKey, ⟨true, replicate (2 ^ 31 + 8192) 0, 0, 0, .static, [[.some 8191]], []⟩,
    length_replicate, rfl, fun _ => ⟨session_micPeers _, exchange_oversize _ length_replicate _⟩⟩

end Wire
end Unameit
