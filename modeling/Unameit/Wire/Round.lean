import Unameit.Wire.Mic

/-!
# Wire.Round — one round of `Unameit_Conn_Progress`

A round hands the vectors to the stream and goes on with what the stream returns.  The two theorems
`progressRound_reading` and `progressRound_writing` say once what a round can do; what it keeps is
derived from them, here for the error number.
-/

namespace Unameit
namespace Wire

variable {r : Round} {n : ℕ}

variable {P : Ciphers} {c c' : Conn} {s s' : Stream} {events : List Event} {pos : ℕ}

/-! ## What a round can do -/

inductive ReadRound (P : Ciphers) (c : Conn) (s : Stream) (events : List Event) :
    Except Abort Round → Prop
  | blocked (hstuck : ¬ (Moves events ∧ s.input ≠ [])) :
    ReadRound P c s events (.ok (.returned c s))
  | failed (hfail : .fail ∈ events) :
    ReadRound P c s events (.ok (.returned { c with errno := some .read } s))
  | ended {rest : List Event} (hinput : s.input = []) (hclosed : s.closed = true) :
    ReadRound P c s events (afterZero P c s rest)
  | got {rest : List Event} {n : ℕ} (hrest : rest ⊆ events) (hpos : 0 < n)
    (hle : n ≤ avail c.message.vectors) (hinput : n ≤ s.input.length) :
    ReadRound P c s events
      (afterIo P (c.lay c.message.vectors (s.input.take n)) { s with input := s.input.drop n } rest n)

lemma afterIo_fail :
    afterIo P c s events (-1) =
      .ok (.returned { c with errno := some (if c.state = .reading then .read else .write) } s) :=
  rfl

lemma progressRound_reading (hstate : c.state = .reading) (hat : AtPos c.message c.state pos)
    (hne : c.message.nvec ≠ 0) : ReadRound P c.hand s events (progressRound P c s events) := by
  have hround : progressRound P c s events =
      (fun r : ℤ × Conn × Stream × List Event =>
        if r.1 = 0 then afterZero P r.2.1 r.2.2.1 r.2.2.2
        else afterIo P r.2.1 r.2.2.1 r.2.2.2 r.1) (streamReadv c.hand s events) := by
    unfold progressRound
    rw [if_neg (by rw [hstate]; decide)]
  have hreads := streamReadv_reads c.hand s events hat.len_pos (Message.vectors_ne_nil hne)
  have hdir : c.hand.state = .reading := hstate
  rw [hround]
  generalize streamReadv c.hand s events = r at hreads
  cases hreads with
  | blocked hrest hstuck =>
    exact .blocked hstuck
  | @failed rest hrest hfail =>
    have hfailed : afterIo P c.hand s rest (-1) =
        .ok (.returned { c.hand with errno := some .read } s) := by
      rw [afterIo_fail, if_pos hdir]
    simp only
    rw [hfailed]
    exact .failed hfail
  | ended hrest hinput hclosed => exact .ended hinput hclosed
  | got hrest hpos hle hinput =>
    simp only
    rw [if_neg (by omega)]
    exact .got hrest hpos hle hinput

inductive WriteRound (P : Ciphers) (c : Conn) (pos : ℕ) (s : Stream) (events : List Event) :
    Except Abort Round → Prop
  | blocked (hstuck : ¬ Moves events) : WriteRound P c pos s events (.ok (.returned c s))
  | failed (hfail : .fail ∈ events) :
    WriteRound P c pos s events (.ok (.returned { c with errno := some .write } s))
  | put {rest : List Event} {n : ℕ} (hrest : rest ⊆ events) (hpos : 0 < n)
    (hle : n ≤ avail c.message.vectors) :
    WriteRound P c pos s events
      (afterIo P c { s with output := s.output ++ (c.image.drop pos).take n } rest n)

lemma progressRound_writing (hstate : c.state = .writing) (hmic : maybeUpdateMic P c false = .ok c')
    (hat : AtPos c'.message c'.state pos) (hfits : Fits c') (hne : c'.message.nvec ≠ 0) :
    WriteRound P c'.hand pos s events (progressRound P c s events) := by
  have hdir : c'.hand.state = .writing := (maybeUpdateMic_keeps hmic).1.state.trans hstate
  have hround : progressRound P c s events =
      (fun r : ℤ × Stream × List Event =>
        if r.1 = 0 then afterZero P c'.hand r.2.1 r.2.2
        else afterIo P c'.hand r.2.1 r.2.2 r.1) (streamWritev c'.hand s events) := by
    unfold progressRound
    rw [if_pos hstate, hmic]
    rfl
  have havail : 0 < avail c'.message.vectors := by
    obtain ⟨v, vs, hvec⟩ := List.exists_cons_of_ne_nil (Message.vectors_ne_nil hne)
    have hlen := hat.len_pos v (by rw [hvec]; exact List.mem_cons_self)
    rw [hvec, avail_cons]
    omega
  have hfits' : Fits c'.hand := ⟨hfits.header, hfits.trailer, hfits.length_lt, hfits.data⟩
  have hwrites := streamWritev_writes s events hfits' (show AtPos c'.hand.message _ pos from hat)
    havail
  rw [hround]
  generalize streamWritev c'.hand s events = r at hwrites
  cases hwrites with
  | blocked hrest hstuck =>
    exact .blocked hstuck
  | @failed rest hrest hfail =>
    have hfailed : afterIo P c'.hand s rest (-1) =
        .ok (.returned { c'.hand with errno := some .write } s) := by
      rw [afterIo_fail, if_neg (by rw [hdir]; decide)]
    simp only
    rw [hfailed]
    exact .failed hfail
  | nothing hrest hstuck =>
    simp only [if_true, afterZero, hdir]
    exact .blocked hstuck
  | @put rest n hrest hpos hle =>
    have hn : n ≤ avail c'.hand.message.vectors :=
      le_trans hle (List.length_take_le _ _)
    simp only
    rw [if_neg (by omega), List.take_take, min_eq_left hn]
    exact .put hrest hpos hn

lemma progressRound_writing_of_ok (hstate : c.state = .writing) (hat : AtPos c.message c.state pos)
    (hfits : Fits c) (hne : c.message.nvec ≠ 0) (hok : progressRound P c s events = .ok r) :
    ∃ d, maybeUpdateMic P c false = .ok d ∧
      WriteRound P d.hand pos s events (progressRound P c s events) := by
  cases hmic : maybeUpdateMic P c false with
  | error e =>
    have herr : progressRound P c s events = .error e := by
      unfold progressRound
      rw [if_pos hstate, hmic]
      rfl
    rw [herr] at hok
    cases hok
  | ok d =>
    obtain ⟨hkeeps, hsame⟩ := maybeUpdateMic_keeps hmic
    have hnvec : d.message.nvec = c.message.nvec := hkeeps.same (·.message.nvec)
    refine ⟨d, rfl, progressRound_writing hstate hmic (hat.of_keeps hkeeps hsame)
      (hfits.of_keeps hkeeps) ?_⟩
    rw [hnvec]
    exact hne

/-- The part of a round after bytes have been transferred. -/
theorem afterIo_of_pos (hpos : 0 < n) :
    afterIo P c s events n = (slideWindow c n).bind fun c =>
      if c.state = .reading then
        if c.message.header.offset < headerLen then .ok (.returned c s)
        else (maybeUpdateMic P c false).map fun c => .next c s events
      else .ok (.next c s events) := by
  unfold afterIo
  rw [if_neg (by omega), if_neg (by omega)]
  simp only [bind, Except.bind]
  cases slideWindow c n with
  | error e => rfl
  | ok d =>
    simp only
    split_ifs
    · rfl
    · cases maybeUpdateMic P d false with
      | error e => rfl
      | ok d' => rfl
    · rfl

/-- After a read that has left the header complete. -/
theorem afterIo_reading (hpos : 0 < n) {d d' : Conn} (hslide : slideWindow c n = .ok d)
    (hstate : d.state = .reading) (hoff : headerLen ≤ d.message.header.offset)
    (hmic : maybeUpdateMic P d false = .ok d') :
    afterIo P c s events n = .ok (.next d' s events) := by
  rw [afterIo_of_pos hpos, hslide]
  show (if d.state = .reading then _ else _) = _
  rw [if_pos hstate, if_neg (not_lt.2 hoff), hmic]
  rfl

/-- A stream that ends in the middle of a message, or before it. -/
theorem afterZero_reading (P : Ciphers) (s : Stream) (events : List Event)
    (hstate : c.state = .reading) :
    (c.message.header.offset = 0 ∧ afterZero P c s events = .ok (.returned { c with state := .eof } s)) ∨
      (c.message.header.offset ≠ 0 ∧
        afterZero P c s events = .ok (.returned { c with errno := some .short } s)) ∨
      (headerLen ≤ c.message.header.offset ∧ c.message.length ≤ c.message.offset ∧
        c.message.trailer.offset = 0 ∧
        afterZero P c s events =
          afterIo P { c with message.trailer.mic := List.replicate micLen 0 } s events micLen) := by
  unfold afterZero
  simp only
  split_ifs with hzero hshort
  · exact .inl ⟨hzero, rfl⟩
  · exact .inr (.inl ⟨hzero, rfl⟩)
  · exact .inr (.inr ⟨by omega, by omega, by omega, rfl⟩)

/-! ## The error number -/

def Round.conn : Round → Conn
  | .returned c _ => c
  | .next c _ _ => c

lemma setMessage_eq_ok {r : Except Abort Message} (h : c.setMessage r = .ok c') :
    ∃ m, c' = { c with message := m } := by
  cases r with
  | error e => cases h
  | ok m =>
    cases h
    exact ⟨m, rfl⟩

lemma isSome_errno_allocData (h : c.errno.isSome) : (allocData c).errno.isSome := by
  rcases allocData_cases c with ⟨-, e, heq⟩ | ⟨-, heq⟩
  · rw [heq]
    rfl
  · rw [heq]
    exact h

lemma slideWindow_errno {nio : ℤ} (hok : slideWindow c nio = .ok c') (h : c.errno.isSome) :
    c'.errno.isSome := by
  unfold slideWindow at hok
  simp only at hok
  split_ifs at hok with hheader htail hread hassert
  · cases hok
    exact h
  · obtain ⟨m, rfl⟩ := setMessage_eq_ok hok
    exact isSome_errno_allocData h
  · obtain ⟨m, rfl⟩ := setMessage_eq_ok hok
    exact h
  · obtain ⟨m, rfl⟩ := setMessage_eq_ok hok
    exact h

lemma maybeUpdateMic_errno {reset : Bool} (hok : maybeUpdateMic P c reset = .ok c') :
    c'.errno = c.errno := (maybeUpdateMic_keeps hok).1.same Conn.errno

lemma afterIo_errno (hn : 0 < n) (hok : afterIo P c s events n = .ok r)
    (h : ∀ {d}, slideWindow c n = .ok d → d.errno.isSome) : r.conn.errno.isSome := by
  rw [afterIo_of_pos hn] at hok
  cases hslide : slideWindow c n with
  | error e =>
    rw [hslide] at hok
    cases hok
  | ok d =>
    rw [hslide] at hok
    have hd := h hslide
    simp only [Except.bind] at hok
    split_ifs at hok with hread hheader
    · cases hok
      exact hd
    · cases hmic : maybeUpdateMic P d false with
      | error e =>
        rw [hmic] at hok
        cases hok
      | ok d' =>
        rw [hmic] at hok
        cases hok
        show d'.errno.isSome
        rw [maybeUpdateMic_errno hmic]
        exact hd
    · cases hok
      exact hd

/-- A round keeps the error number of a broken connection. -/
theorem progressRound_errno (hdir : c.state = .reading ∨ c.state = .writing)
    (hat : AtPos c.message c.state pos) (hfits : Fits c) (hne : c.message.nvec ≠ 0)
    (hok : progressRound P c s events = .ok r) (h : c.errno.isSome) : r.conn.errno.isSome := by
  rcases hdir with hstate | hstate
  · have hround : ReadRound P c.hand s events (progressRound P c s events) :=
      progressRound_reading hstate hat hne
    generalize progressRound P c s events = x at hround hok
    cases hround with
    | blocked hstuck =>
      cases hok
      exact h
    | failed hfail =>
      cases hok
      rfl
    | @ended rest hinput hclosed =>
      have hdir : c.hand.state = .reading := hstate
      rcases afterZero_reading P s rest hdir with
        ⟨-, heq⟩ | ⟨-, heq⟩ | ⟨-, -, -, heq⟩
      · rw [heq] at hok
        cases hok
        exact h
      · rw [heq] at hok
        cases hok
        rfl
      · rw [heq] at hok
        exact afterIo_errno (by decide) hok fun hslide => slideWindow_errno hslide h
    | @got rest n hrest hpos hle hinput =>
      refine afterIo_errno hpos hok fun hslide => slideWindow_errno hslide ?_
      have hlay : (c.hand.lay c.hand.message.vectors (s.input.take n)).errno = c.errno :=
        same_of_blank (blank_lay _ _ _) Conn.errno
      rw [hlay]
      exact h
  · obtain ⟨d, hmic, hround⟩ := progressRound_writing_of_ok hstate hat hfits hne hok
    have hd : d.errno.isSome := by
      rw [maybeUpdateMic_errno hmic]
      exact h
    generalize progressRound P c s events = x at hround hok
    cases hround with
    | blocked hstuck =>
      cases hok
      exact hd
    | failed hfail =>
      cases hok
      rfl
    | put hrest hpos hle => exact afterIo_errno hpos hok fun hslide => slideWindow_errno hslide hd

end Wire
end Unameit
