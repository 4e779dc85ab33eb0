import Unameit.Wire.Receive

/-!
# Wire.Transfer — one message from end to end

A message goes from a sender to a receiver through streams that split it at will, on either side.
The sender emits the header, the data and the trailer, and nothing else; the receiver consumes just
these bytes, also if more have arrived, and reads the data that have been sent (`transfer_exact`).
-/

namespace Unameit
namespace Wire

variable {P : Ciphers} {c : Conn} {s : Stream} {pos : ℕ} {t t' w r : Option Token}
  {data trailer : Bytes} {maxlen : ℕ} {x : Incoming}

/-! ## Frames that are sent are accepted -/

lemma ntoh_headerBytes_magic (authType result length : ℕ) :
    ntoh (headerBytes authType result length) = connMagic := by
  exact ntoh_hton (by decide) _

lemma ntoh_headerBytes_result (authType : ℕ) {result : ℕ} (hresult : result < 2 ^ 32)
    (length : ℕ) : ntoh ((headerBytes authType result length).drop 8) = result :=
  ntoh_hton hresult (hton length)

lemma ntoh_headerBytes_datalen (authType result : ℕ) {length : ℕ} (hlength : length < 2 ^ 32) :
    ntoh ((headerBytes authType result length).drop 12) = length := by
  have hlast := ntoh_hton hlength []
  exact hlast

lemma length_elim_trailer (P : Ciphers) (t : Option Token) (header data : Bytes) :
    (t.elim [] fun t => t.trailer P header data).length = if t.isSome then micLen else 0 := by
  cases t with
  | none => rfl
  | some t => exact t.length_trailer P header data

/-- The bytes of a message that is sent, as the receiver sees them. -/
theorem frame_of_sent (t : Option Token) (authType result : ℕ) (hsmall : data.length < 2 ^ 31)
    (hmax : maxlen = 0 ∨ data.length ≤ maxlen)
    (hlen : trailer.length = if t.isSome then micLen else 0) :
    Frame t maxlen (headerBytes authType result data.length) data trailer :=
  ⟨rfl, ntoh_headerBytes_magic authType result data.length,
    ntoh_headerBytes_datalen authType result (lt_trans hsmall (by decide)), hsmall, hmax, hlen⟩

/-! ## Calls one after the other -/

lemma receiveCalls_append (c : Conn) (s : Stream) (calls more : List (Bytes × List Event)) :
    receiveCalls P c s (calls ++ more) = (do
      let (c, s) ← receiveCalls P c s calls
      receiveCalls P c s more) := by
  induction calls generalizing c s with
  | nil => rfl
  | cons call calls ih =>
    obtain ⟨b, events⟩ := call
    simp only [List.cons_append, receiveCalls]
    split_ifs
    · cases connProgress P c (s.arrive b) events with
      | error e => rfl
      | ok x => exact ih x.1 x.2
    · exact ih c (s.arrive b)

lemma arrivals_append (calls more : List (Bytes × List Event)) :
    arrivals (calls ++ more) = arrivals calls ++ arrivals more :=
  List.flatMap_append

/-- Calls, and after them enough calls that can read something: the message is read to its end. -/
theorem ReceiveState.finishes (hframe : x.Framed t) (h : ReceiveState P t r x c pos)
    {calls more : List (Bytes × List Event)} {rest : Bytes}
    (hinput : s.input ++ arrivals (calls ++ more) <+: x.bytes.drop pos ++ rest)
    (hopen : s.closed = false) (hfail : ∀ call ∈ calls ++ more, .fail ∉ call.2) :
    ∃ d pos', CallReads P t r x (s.arrive (arrivals (calls ++ more))) pos
        (receiveCalls P c s (calls ++ more)) d pos' ∧
      (x.bytes.drop pos <+: s.input ++ arrivals calls → (∀ call ∈ more, Moves call.2) →
        x.bytes.length ≤ more.length → pos' = x.bytes.length) := by
  rw [arrivals_append] at hinput ⊢
  rw [← List.append_assoc] at hinput
  rw [← arrive_arrive]
  obtain ⟨d₁, pos₁, hreads, -⟩ := h.calls hframe ((List.prefix_append _ _).trans hinput) hopen
    fun call hcall => hfail call (List.mem_append_left _ hcall)
  have hmax₁ := hreads.state.le
  have hsum : pos + (pos₁ - pos) = pos₁ := Nat.add_sub_cancel' hreads.le
  have hinput₁ := input_skip (s := s.arrive (arrivals calls)) hinput hreads.input (by omega)
  rw [hsum] at hinput₁
  obtain ⟨d, pos', hreads', hmoves⟩ := hreads.state.calls hframe hinput₁ hopen
    fun call hcall => hfail call (List.mem_append_right _ hcall)
  refine ⟨d, pos', ?_, fun hwhole hall hmany => ?_⟩
  · rw [receiveCalls_append, hreads.ok]
    exact hreads.trans hreads'
  · have hleft := whole_skip (s := s.arrive (arrivals calls)) (n := pos₁ - pos) hwhole (by omega)
    rw [hsum] at hleft
    have hmore := hmoves hleft hall
    have hmax' := hreads'.state.le
    omega

/-! ## The whole message -/

/-- For every message and every way in which the streams split it: the sender emits the header, the
data and the trailer, and the receiver consumes these bytes and returns the message; either side
calls its callback once, when it is done. -/
theorem transfer_exact {S R : Conn} {maxlenS maxlenR : ℕ} {logS logR : List ConnState}
    (hS : Ready t r maxlenS logS S) (hR : Ready w t' maxlenR logR R) (hmic : t'.isSome = t.isSome)
    (authType : ℕ) {result : ℕ} (hresult : result < 2 ^ 32) (free : FreeProc)
    (hsmall : data.length < 2 ^ 31) (hmax : maxlenR = 0 ∨ data.length ≤ maxlenR) :
    ∃ S₁ R₁ trailer bytes, connWrite P S data authType result free = .ok S₁ ∧
      connPoll P R = .ok R₁ ∧
      trailer.length = (if t.isSome then micLen else 0) ∧
      bytes = headerBytes authType result data.length ++ (data ++ trailer) ∧
      (∀ (s : Stream) (calls : List (List Event)), (∀ events ∈ calls, .fail ∉ events) →
        ∃ S' k, sendCalls P S₁ s calls = .ok (S', s.emit (bytes.take k)) ∧ k ≤ bytes.length ∧
          (k < bytes.length → S'.state = .writing ∧ S'.callbacks = logS) ∧
          (k = bytes.length → S'.state = .iodone ∧ S'.callbacks = logS ++ [.writing]) ∧
          ((∀ events ∈ calls, Moves events) → bytes.length ≤ calls.length → k = bytes.length)) ∧
      (∀ (s : Stream) (calls more : List (Bytes × List Event)) (rest : Bytes), s.closed = false →
        s.input ++ arrivals (calls ++ more) <+: bytes ++ rest →
        (∀ call ∈ calls ++ more, .fail ∉ call.2) →
        ∃ R' k, receiveCalls P R₁ s (calls ++ more) =
            .ok (R', (s.arrive (arrivals (calls ++ more))).skip k) ∧ k ≤ bytes.length ∧
          (k < bytes.length → R'.state = .reading ∧ R'.callbacks = logR) ∧
          (k = bytes.length → R'.state = .iodone ∧ R'.callbacks = logR ++ [.reading] ∧
            (connRead R').1 = some ⟨data ++ [0], data.length, result⟩) ∧
          (bytes <+: s.input ++ arrivals calls → (∀ call ∈ more, Moves call.2) →
            bytes.length ≤ more.length → k = bytes.length)) := by
  obtain ⟨S₁, hwrite, hsend⟩ := hS.write (P := P) data authType result free hsmall
  set header := headerBytes authType result data.length with hheader
  have hlen := length_elim_trailer P t header data
  set x : Incoming := ⟨header, data, t.elim [] fun t => t.trailer P header data, maxlenR, logR⟩
  have hframe : x.Framed t' := frame_of_sent t' authType result hsmall hmax (by rw [hlen, hmic])
  obtain ⟨R₁, hpoll, hrecv⟩ := Ready.poll (P := P) (x := x) hR hframe
  refine ⟨S₁, R₁, _, wire P t header data, hwrite, hpoll, hlen, rfl, ?_, ?_⟩
  · intro s calls hfail
    obtain ⟨S', k, hok, -, hstate, hmoves⟩ := hsend.calls (s := s) hfail
    have hk : k ≤ (wire P t header data).length := by
      rcases hstate with ⟨hlt, -⟩ | ⟨heq, -⟩
      · exact le_of_lt hlt
      · exact le_of_eq heq
    refine ⟨S', k, hok, hk, fun hlt => ?_, fun heq => ?_, fun hall hmany => ?_⟩
    · rcases hstate with ⟨-, hsending⟩ | ⟨heq, -⟩
      · exact ⟨hsending.state, hsending.callbacks⟩
      · exact absurd heq (ne_of_lt hlt)
    · rcases hstate with ⟨hlt, -⟩ | ⟨-, hready⟩
      · exact absurd heq (ne_of_lt hlt)
      · exact ⟨hready.state, hready.callbacks⟩
    · have := hmoves hall
      omega
  · intro s calls more rest hopen hinput hfail
    obtain ⟨R', k, hreads, hmoves⟩ := hrecv.finishes hframe (s := s) hinput hopen hfail
    refine ⟨R', k, hreads.ok, hreads.state.le, fun hlt => ?_, fun heq => ?_, hmoves⟩
    · rcases hreads.state with ⟨-, hreceiving⟩ | ⟨heq, -⟩
      · exact ⟨hreceiving.busy.state, hreceiving.busy.callbacks⟩
      · exact absurd heq (ne_of_lt hlt)
    · rcases hreads.state with ⟨hlt, -⟩ | ⟨-, hcomplete⟩
      · exact absurd heq (ne_of_lt hlt)
      · refine ⟨hcomplete.ready.state, hcomplete.ready.callbacks, ?_⟩
        rw [hcomplete.payload, show ntoh (x.header.drop 8) = _ from
          ntoh_headerBytes_result authType hresult _]

lemma ready_fresh : Ready none none 0 [] Conn.fresh :=
  ⟨rfl, rfl, rfl, rfl, rfl, rfl, rfl, rfl, rfl⟩

/-- A message of three bytes without MIC, sent in pieces of five bytes and received in pieces of
two. -/
theorem transfer_exact_pieces : ∃ S₁ R₁ S' R' s s',
    connWrite Ciphers.plain Conn.fresh [104, 105, 0] 2 7 .static = .ok S₁ ∧
    connPoll Ciphers.plain Conn.fresh = .ok R₁ ∧
    sendCalls Ciphers.plain S₁ ⟨[], false, []⟩ (List.replicate 19 [.some 5]) = .ok (S', s) ∧
    S'.callbacks = [.writing] ∧
    receiveCalls Ciphers.plain R₁ ⟨[], false, []⟩ ((headerBytes 2 7 3 ++ [104, 105, 0], []) ::
      List.replicate 19 ([], [.some 2])) = .ok (R', s') ∧
    R'.callbacks = [.reading] ∧ (connRead R').1 = some ⟨[104, 105, 0, 0], 3, 7⟩ := by
  have hsmall : [104, 105, (0 : UInt8)].length < 2 ^ 31 := by decide
  have hresult : 7 < 2 ^ 32 := by decide
  obtain ⟨S₁, R₁, trailer, bytes, hwrite, hpoll, hlen, rfl, hsend, hreceive⟩ :=
    transfer_exact (P := Ciphers.plain) ready_fresh ready_fresh rfl 2 hresult .static hsmall
      (.inl rfl)
  obtain rfl := List.length_eq_zero_iff.1 hlen
  obtain ⟨S', k, hs, -, -, hdone, hk⟩ := hsend ⟨[], false, []⟩ (List.replicate 19 [.some 5]) (by decide)
  obtain ⟨R', k', hr, -, -, hdone', hk'⟩ := hreceive ⟨[], false, []⟩
    [(headerBytes 2 7 3 ++ [104, 105, 0], [])] (List.replicate 19 ([], [.some 2])) []
    rfl (by decide) (by decide)
  have hall := hdone (hk (fun events h => List.eq_of_mem_replicate h ▸ ⟨5, [], rfl⟩) (by decide))
  have hall' := hdone' (hk' (by decide)
    (fun call h => List.eq_of_mem_replicate h ▸ ⟨2, [], rfl⟩) (by decide))
  exact ⟨S₁, R₁, S', R', _, _, hwrite, hpoll, hs, hall.2, hr, hall'.2⟩

end Wire
end Unameit
