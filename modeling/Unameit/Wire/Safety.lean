import Unameit.Wire.Round

/-!
# Wire.Safety — memory safety of a connection

A connection is used in any way its functions allow, and the peer sends whatever it likes.  As long as
no accepted header announces `2 ^ 32 - 1` bytes, every place that is handed to the stream, and the NUL
that `alloc_data` stores, lies inside a region (`Run.inside`).  With such a header the size that is
passed to `ckalloc` is `2 ^ 32`, that is zero.
-/

namespace Unameit
namespace Wire

open Conn Ciphers

/-- The place lies inside a region that is there and as large as expected. -/
def Access.Inside (a : Access) : Prop :=
  ∃ n, a.size = some n ∧ a.off + a.len ≤ n ∧ a.room ≤ n

inductive Op
  | write (data : Bytes) (authType result : ℕ) (free : FreeProc)
  | poll
  | progress (s : Stream) (events : List Event)
  | read
  | maxlen (n : ℕ)
  | callback (set : Bool)
  | enable (key : Bytes) (state : ConnState) (seqno : ℕ)
  | free (buffer : ℕ)

variable (P : Ciphers)

def step (c : Conn) : Op → Except Abort Conn
  | .write data authType result free => connWrite P c data authType result free
  | .poll => connPoll P c
  | .progress s events => (connProgress P c s events).map Prod.fst
  | .read => .ok (connRead c).2
  | .maxlen n => .ok { c with message.maxlen := n }
  | .callback set => .ok { c with callback := set }
  | .enable key state seqno => micEnable c key state seqno
  | .free buffer =>
    .ok (if c.message.data = some buffer then c
      else { c with heap := Function.update c.heap buffer none })

/-- The header that is complete with the next bytes of the input. -/
def Conn.nextHeader (c : Conn) (input : Bytes) : Header :=
  ⟨c.message.header.data.take c.message.header.offset ++
    input.take (headerLen - c.message.header.offset), headerLen⟩

/-- The next bytes complete a header that is accepted, with a length that leaves no room for the
NUL. -/
def Oversize (c : Conn) (input : Bytes) : Prop :=
  c.state = .reading ∧ c.message.header.offset < headerLen ∧
    (c.nextHeader input).data.length = headerLen ∧ (c.nextHeader input).magic = connMagic ∧
    (c.nextHeader input).datalen = 2 ^ 32 - 1 ∧
    (c.message.maxlen = 0 ∨ 2 ^ 32 - 1 ≤ c.message.maxlen)

def Op.Sized (c : Conn) : Op → Prop
  | .progress s _ => ¬ Oversize c s.input
  | _ => True

inductive Run : Conn → Prop
  | fresh : Run Conn.fresh
  | step {c c' : Conn} {op : Op} (hrun : Run c) (hop : op.Sized c) (h : step P c op = .ok c') : Run c'

variable {P} {c c' : Conn} {pos : ℕ}

/-! ## Places that are handed out -/

lemma size_of_bytes {r : Region} (h : 0 < (c.bytes r).length) :
    c.size r = some (c.bytes r).length := by
  cases r with
  | null => exact absurd h (lt_irrefl _)
  | header => rfl
  | data b =>
    cases hb : c.heap b with
    | none =>
      simp only [bytes, hb, Option.getD_none, List.length_nil] at h
      exact absurd h (lt_irrefl _)
    | some l => simp [size, bytes, hb]
  | trailer => rfl

variable {v : Iovec} {p n packets : ℕ} {input : Bytes} {s' : Stream} {state : ConnState} {op : Op}

lemma Covers.inside (hfits : Fits c) (h : Covers c v p) :
    Access.Inside ⟨c.size v.region, v.off, v.len, c.room v⟩ := by
  cases h with
  | header h => exact ⟨_, rfl, by rw [hfits.header]; exact h, Nat.zero_le _⟩
  | @data off len h hlen =>
    have hroom := hfits.data (by omega)
    have hsize : 0 < c.buffer.length := by omega
    refine ⟨c.buffer.length, size_of_bytes hsize, ?_, ?_⟩
    · show off + len ≤ _
      omega
    · unfold room
      split
      · split_ifs at hroom ⊢
        · exact hroom
        · exact Nat.zero_le _
      · exact Nat.zero_le _
  | trailer h hmic => exact ⟨_, rfl, by rw [hfits.trailer]; exact h, Nat.zero_le _⟩

lemma Tiles.exists_covers {vs : List Iovec} (h : Tiles c vs p) (hv : v ∈ vs) :
    ∃ q, Covers c v q := by
  induction vs generalizing p with
  | nil => exact absurd hv List.not_mem_nil
  | cons w vs ih =>
    rcases List.mem_cons.1 hv with rfl | hv
    · exact ⟨p, h.1⟩
    · exact ih h.2 hv

/-! ## Invariants -/

structure Handing (c : Conn) (pos : ℕ) : Prop where
  dir : c.state = .reading ∨ c.state = .writing
  at' : AtPos c.message c.state pos
  fits : Fits c
  inside : ∀ a ∈ c.accesses, a.Inside

structure Safe (c : Conn) : Prop where
  header : c.message.header.data.length = headerLen
  trailer : c.message.trailer.mic.length = micLen
  inside : ∀ a ∈ c.accesses, a.Inside
  handing : c.errno = none → c.state = .reading ∨ c.state = .writing → ∃ pos, Handing c pos

lemma Handing.safe (h : Handing c pos) : Safe c :=
  ⟨h.fits.header, h.fits.trailer, h.inside, fun _ _ => ⟨pos, h⟩⟩

/-- A broken connection is safe if it was safe before. -/
theorem Safe.broken (h : Safe c) {e : ConnError} : Safe { c with errno := some e } :=
  ⟨h.header, h.trailer, h.inside, fun herr => nomatch herr⟩

lemma Handing.hand (h : Handing c pos) : Handing c.hand pos := by
  refine ⟨h.dir, h.at', ⟨h.fits.header, h.fits.trailer, h.fits.length_lt, h.fits.data⟩, fun a ha => ?_⟩
  rcases List.mem_append.1 ha with ha | ha
  · exact h.inside a ha
  · obtain ⟨v, hv, rfl⟩ := List.mem_map.1 ha
    obtain ⟨q, hq⟩ := h.at'.tiles.exists_covers hv
    exact hq.inside h.fits

lemma Handing.of_blank (h : Handing c pos) (hb : c'.blank = c.blank) : Handing c' pos := by
  have hstate : c'.state = c.state := same_of_blank hb state
  have haccesses : c'.accesses = c.accesses := same_of_blank hb accesses
  refine ⟨?_, h.at'.of_blank hb, h.fits.of_blank hb, ?_⟩
  · rw [hstate]
    exact h.dir
  · rw [haccesses]
    exact h.inside

lemma Handing.of_keeps (h : Handing c pos) (hk : Keeps c c')
    (hmic : c'.message.hasMic c.state = c.message.hasMic c.state) : Handing c' pos := by
  have haccesses : c'.accesses = c.accesses := hk.same accesses
  refine ⟨?_, h.at'.of_keeps hk hmic, h.fits.of_keeps hk, ?_⟩
  · rw [hk.state]
    exact h.dir
  · rw [haccesses]
    exact h.inside

/-! ## The window -/

lemma ntoh_lt (b : Bytes) : ntoh b < 2 ^ 32 := by
  have hfold : ∀ (l : Bytes) (n k : ℕ), n < 2 ^ (8 * k) →
      l.foldl (fun n x => 2 ^ 8 * n + x.toNat) n < 2 ^ (8 * (k + l.length)) := by
    intro l
    induction l with
    | nil => exact fun n k hn => hn
    | cons x l ih =>
      intro n k hn
      have hx := x.toNat_lt
      have hstep : 2 ^ 8 * n + x.toNat < 2 ^ (8 * (k + 1)) := by
        have hpow : 2 ^ (8 * (k + 1)) = 2 ^ 8 * 2 ^ (8 * k) := by
          rw [Nat.mul_add, Nat.pow_add, mul_comm]
        omega
      have := ih _ _ hstep
      rwa [List.length_cons, add_comm l.length, ← add_assoc]
  have hlt := hfold (b.take 4) 0 0 (by decide)
  have hle : 2 ^ (8 * (0 + (b.take 4).length)) ≤ 2 ^ 32 :=
    Nat.pow_le_pow_right (by decide) (by rw [List.length_take]; omega)
  exact lt_of_lt_of_le hlt hle

lemma Handing.alloc (h : Handing c pos) (hstate : c.state = .reading)
    (hsized : c.message.accepts → c.message.header.datalen ≠ 2 ^ 32 - 1) :
    Handing c.opened headerLen := by
  unfold opened
  rcases allocData_cases { c with message.header.offset := headerLen } with ⟨-, e, heq⟩ | ⟨hacc, heq⟩
  · rw [heq]
    refine ⟨.inl hstate, ?_, ?_, h.inside⟩
    · rw [hstate]
      exact atPos_iovInitData rfl
    · have hcore : (iovInitData { c.message with header.offset := headerLen } .reading).core =
          c.message.core := core_iovInitData _ _
      obtain ⟨hh, ht, hl, hd⟩ := h.fits.of_core hcore
      exact ⟨hh, ht, hl, hd⟩
  · have hne := hsized hacc
    have hlt : c.message.header.datalen < 2 ^ 32 := ntoh_lt _
    have hmod : (c.message.header.datalen + 1) % 2 ^ 32 = c.message.header.datalen + 1 :=
      Nat.mod_eq_of_lt (by omega)
    have hbuffer := buffer_allocData hacc
    have hfits : Fits (allocData { c with message.header.offset := headerLen }) := by
      refine ⟨?_, ?_, ?_, fun _ => ?_⟩
      · rw [heq]
        exact h.fits.header
      · rw [heq]
        exact h.fits.trailer
      · rw [heq]
        exact hlt
      · rw [hbuffer, heq, List.length_replicate, if_pos hstate]
        exact le_of_eq hmod.symm
    have hdir : (allocData { c with message.header.offset := headerLen }).state = .reading :=
      (state_allocData _).trans hstate
    have hheader : (allocData { c with message.header.offset := headerLen }).message.header.offset =
        headerLen := by
      rw [heq]
    refine ⟨.inl hdir, ?_, hfits.of_core (core_iovInitData _ _), ?_⟩
    · rw [hdir]
      exact atPos_iovInitData hheader
    · rw [heq]
      intro a ha
      rcases List.mem_append.1 ha with ha | ha
      · exact h.inside a ha
      · rw [List.mem_singleton.1 ha]
        exact ⟨_, rfl, le_of_eq hmod.symm, le_of_eq hmod.symm⟩

/-- `slide_window`, if no accepted header leaves no room for the NUL. -/
theorem Handing.slide (h : Handing c pos) (hle : n ≤ avail c.message.vectors)
    (hsized : c.state = .reading → pos < headerLen → pos + n = headerLen → c.message.accepts →
      c.message.header.datalen ≠ 2 ^ 32 - 1) (hok : slideWindow c n = .ok c') :
    c'.state = c.state ∧ ∃ pos', Handing c' pos' := by
  by_cases hread : c.state = .reading ∧ pos < headerLen ∧ pos + n = headerLen
  · obtain ⟨hstate, hpos, heq⟩ := hread
    rw [slideWindow_read h.at' hstate hpos heq] at hok
    cases hok
    exact ⟨state_allocData _, headerLen, h.alloc hstate (hsized hstate hpos heq)⟩
  · have hcase : c.state = .reading → pos < headerLen → pos + n < headerLen := by
      intro hstate hpos
      have hvec := h.at'.vectors_header hpos
      rw [hstate, if_neg (by decide)] at hvec
      rw [hvec, avail_cons] at hle
      have hnil : avail [] = 0 := rfl
      simp only [hnil] at hle
      by_contra hge
      exact hread ⟨hstate, hpos, by omega⟩
    rcases slideWindow_spec h.at' h.fits.length_lt hle hcase with ⟨herr, -⟩ | ⟨m', pos', hok', hcore, hat, -⟩
    · rw [herr] at hok
      cases hok
    · rw [hok'] at hok
      cases hok
      exact ⟨rfl, pos', h.dir, hat, h.fits.of_core hcore, h.inside⟩

section

variable (h : Handing c pos) (hstate : c.state = .reading) (hlt : pos < headerLen)
  (heq : pos + n = headerLen) (hinput : n ≤ input.length)

include h hstate hlt heq hinput

/-- The bytes that complete the header. -/
theorem Handing.lay_complete :
    c.lay c.message.vectors (input.take n) =
      { c with message.header.data := (c.nextHeader input).data } := by
  have hlen : (input.take n).length = n := by
    rw [List.length_take]
    omega
  have hheader := h.fits.header
  rw [h.at'.lay_header hstate hlt (by omega), overwrite_eq (by omega),
    List.drop_eq_nil_of_le (by omega), List.append_nil]
  unfold nextHeader
  rw [(h.at'.offsets_header hlt).1, Nat.sub_eq_of_eq_add (heq.symm.trans (add_comm _ _))]

lemma Handing.oversize
    (hacc : Message.accepts { c.message with header.data := (c.nextHeader input).data })
    (hlen : (c.nextHeader input).datalen = 2 ^ 32 - 1) : Oversize c input := by
  have hheader := h.fits.header
  have hoffset := (h.at'.offsets_header hlt).1
  refine ⟨hstate, by omega, ?_, hacc.1, hlen, ?_⟩
  · simp only [nextHeader, List.length_append, List.length_take]
    omega
  · rcases hacc.2 with hzero | hle
    · exact .inl hzero
    · exact .inr (le_trans (le_of_eq hlen.symm) hle)

end

/-! ## Rounds -/

inductive Sound : Round → Prop
  | returned {c : Conn} {s : Stream} (h : Safe c) : Sound (.returned c s)
  | next {c : Conn} {s : Stream} {events : List Event} {pos : ℕ} (h : Handing c pos)
    (hpos : c.state = .reading → headerLen ≤ pos) : Sound (.next c s events)

variable {s : Stream} {events : List Event} {r : Round}

lemma Handing.afterIo (h : Handing c pos) (hn : 0 < n) (hle : n ≤ avail c.message.vectors)
    (hsized : c.state = .reading → pos < headerLen → pos + n = headerLen → c.message.accepts →
      c.message.header.datalen ≠ 2 ^ 32 - 1) (hok : afterIo P c s events n = .ok r) : Sound r := by
  rw [afterIo_of_pos hn] at hok
  cases hslide : slideWindow c n with
  | error e =>
    rw [hslide] at hok
    cases hok
  | ok d =>
    rw [hslide] at hok
    obtain ⟨hstate, pos', hd⟩ := h.slide hle hsized hslide
    simp only [Except.bind] at hok
    split_ifs at hok with hread hheader
    · cases hok
      exact .returned hd.safe
    · cases hmic : maybeUpdateMic P d false with
      | error e =>
        rw [hmic] at hok
        cases hok
      | ok d' =>
        rw [hmic] at hok
        cases hok
        obtain ⟨hkeeps, hsame⟩ := maybeUpdateMic_keeps hmic
        refine .next (hd.of_keeps hkeeps hsame) fun _ => ?_
        have := hd.at'.header
        omega
    · cases hok
      exact .next hd fun hread' => absurd hread' hread

/-- A round, if it does not complete a header that leaves no room for the NUL. -/
theorem Handing.round (h : Handing c pos) (hne : c.message.nvec ≠ 0) (hsized : ¬ Oversize c s.input)
    (hok : progressRound P c s events = .ok r) : Sound r := by
  rcases h.dir with hstate | hstate
  · have hround : ReadRound P c.hand s events (progressRound P c s events) :=
      progressRound_reading hstate h.at' hne
    generalize progressRound P c s events = x at hround hok
    cases hround with
    | blocked hstuck =>
      cases hok
      exact .returned h.hand.safe
    | failed hfail =>
      cases hok
      exact .returned h.hand.safe.broken
    | @ended rest hinput hclosed =>
      have hdir : c.hand.state = .reading := hstate
      rcases afterZero_reading P s rest hdir with
        ⟨-, heq⟩ | ⟨-, heq⟩ | ⟨hheader, hdata, htrailer, heq⟩
      · rw [heq] at hok
        cases hok
        exact .returned ⟨h.fits.header, h.fits.trailer, h.hand.inside, fun _ hdir => by simp at hdir⟩
      · rw [heq] at hok
        cases hok
        exact .returned h.hand.safe.broken
      · -- the trailer that is missing counts as zeros
        rw [heq] at hok
        have hzero : ({ c.hand with message.trailer.mic := List.replicate micLen 0 } : Conn).blank =
            c.hand.blank := by
          have hlen : c.hand.message.trailer.mic.length = micLen := h.fits.trailer
          simp [blank, hlen]
        refine (h.hand.of_blank hzero).afterIo (by decide) ?_ ?_ hok
        · exact le_of_eq (h.at'.avail_trailer hheader hdata htrailer hne).symm
        · intro _ hpos
          exact absurd hheader (by rw [(h.hand.at'.offsets_header hpos).1]; omega)
    | @got rest n hrest hpos hle hinput =>
      have hlay : (c.hand.lay c.hand.message.vectors (s.input.take n)).blank = c.hand.blank :=
        blank_lay _ _ _
      refine (h.hand.of_blank hlay).afterIo hpos ?_ ?_ hok
      · have hvectors : (c.hand.lay c.hand.message.vectors (s.input.take n)).message.vectors =
            c.hand.message.vectors := same_of_blank hlay (·.message.vectors)
        rw [hvectors]
        exact hle
      · intro _ hlt heq hacc hlen
        rw [h.hand.lay_complete hstate hlt heq hinput] at hacc hlen
        exact hsized (h.oversize hstate hlt heq hinput hacc hlen)
  · obtain ⟨d, hmic, hround⟩ := progressRound_writing_of_ok hstate h.at' h.fits hne hok
    obtain ⟨hkeeps, hsame⟩ := maybeUpdateMic_keeps hmic
    have hd := h.of_keeps hkeeps hsame
    generalize progressRound P c s events = x at hround hok
    cases hround with
    | blocked hstuck =>
      cases hok
      exact .returned hd.hand.safe
    | failed hfail =>
      cases hok
      exact .returned hd.hand.safe.broken
    | put hrest hpos hle =>
      refine hd.hand.afterIo hpos hle (fun hread => ?_) hok
      exact absurd (hread.symm.trans (hkeeps.state.trans hstate)) (by decide)

/-! ## Operations -/

lemma Handing.done (h : Handing c pos) : Safe (progressDone c) := by
  unfold progressDone
  by_cases hnvec : 0 < c.message.nvec
  · rw [if_pos hnvec]
    exact h.safe
  · split_ifs
    · exact ⟨h.fits.header, h.fits.trailer, h.inside, fun _ hdir => by simp at hdir⟩
    · exact ⟨h.fits.header, h.fits.trailer, h.inside, fun _ hdir => by simp at hdir⟩

/-- After the header no header is completed. -/
theorem Handing.not_oversize (h : Handing c pos) (hpos : c.state = .reading → headerLen ≤ pos)
    (input : Bytes) : ¬ Oversize c input := by
  rintro ⟨hstate, hlt, -⟩
  have hheader := h.at'.header
  have hle := hpos hstate
  omega

/-- The loop of `Unameit_Conn_Progress`, over the number of rounds that are left. -/
theorem Handing.loop (h : Handing c pos) (hsized : ¬ Oversize c s.input)
    (hok : progressLoop P packets c s events = .ok (c', s')) : Safe c' := by
  induction packets generalizing c pos s events with
  | zero =>
    cases hok
    exact h.done
  | succ packets ih =>
    unfold progressLoop at hok
    split_ifs at hok with hnvec
    · cases hok
      exact h.done
    · cases hround : progressRound P c s events with
      | error e =>
        rw [hround] at hok
        cases hok
      | ok r =>
        rw [hround] at hok
        cases h.round hnvec hsized hround with
        | returned hsafe =>
          cases hok
          exact hsafe
        | next hnext hpos => exact ih hnext (hnext.not_oversize hpos _) hok

lemma Safe.progress (h : Safe c) (hsized : ¬ Oversize c s.input)
    (hok : connProgress P c s events = .ok (c', s')) : Safe c' := by
  unfold connProgress at hok
  split_ifs at hok with herr hcall hdir
  · cases hok
    exact h
  · cases hok
    exact h.broken
  · obtain ⟨pos, hpos⟩ := h.handing (by simpa using herr) hdir.symm
    exact hpos.loop hsized hok
  · cases hok
    exact h.broken

/-- `newstate` frees the data and leaves the header, the trailer and the accesses alone. -/
theorem newstate_spec (c : Conn) (state : ConnState) :
    (newstate c state).message.header.data = c.message.header.data ∧
      (newstate c state).message.trailer = c.message.trailer ∧
      (newstate c state).accesses = c.accesses ∧
      (c.errno.isSome → (newstate c state).errno.isSome) ∧
      ((newstate c state).errno = none → (newstate c state).state = state ∧
        (newstate c state).message.length = 0 ∧ (newstate c state).message.offset = 0) := by
  unfold newstate
  simp only
  split_ifs with herr hbad
  · refine ⟨rfl, rfl, rfl, id, fun hnone => ?_⟩
    rw [hnone] at herr
    exact absurd herr (by simp)
  · exact ⟨rfl, rfl, rfl, fun _ => rfl, fun _ => ⟨rfl, rfl, rfl⟩⟩
  · exact ⟨rfl, rfl, rfl, fun hsome => absurd hsome herr, fun _ => ⟨rfl, rfl, rfl⟩⟩

/-- The first vectors of a message. -/
theorem Fits.handing (h : Fits c) (hstate : c.state = state)
    (hdir : state = .reading ∨ state = .writing) (hoff : c.message.offset = 0)
    (hinside : ∀ a ∈ c.accesses, a.Inside) :
    Handing { c with message := iovInitHeader c.message state } 0 := by
  subst hstate
  exact ⟨hdir, atPos_iovInitHeader hoff, h.of_core (core_iovInitHeader _ _), hinside⟩

lemma Handing.reset (h : Handing c pos) (hok : maybeUpdateMic P c true = .ok c') : Safe c' := by
  obtain ⟨hkeeps, hsame⟩ := maybeUpdateMic_keeps hok
  exact (h.of_keeps hkeeps hsame).safe

lemma Safe.write (h : Safe c) {data : Bytes} {authType result : ℕ} {free : FreeProc}
    (hok : connWrite P c data authType result free = .ok c') : Safe c' := by
  obtain ⟨hheader, htrailer, haccesses, -, hnew⟩ := newstate_spec c .writing
  unfold connWrite at hok
  simp only at hok
  generalize newstate c .writing = d at hok hheader htrailer haccesses hnew
  have hinside : ∀ a ∈ d.accesses, a.Inside := by
    rw [haccesses]
    exact h.inside
  split_ifs at hok with herr
  · cases hok
    refine ⟨?_, ?_, hinside, fun hnone => ?_⟩
    · rw [← h.header, ← hheader]
    · rw [← h.trailer, ← htrailer]
    · rw [show d.errno = none from hnone] at herr
      exact absurd herr (by simp)
  · obtain ⟨hstate, -, hoff⟩ := hnew (by simpa using herr)
    have hlen : data.length % 2 ^ 32 ≤ data.length := Nat.mod_le _ _
    set d' : Conn :=
      { d with
        heap := Function.update d.heap d.nextBuffer (some data)
        nextBuffer := d.nextBuffer + 1
        message :=
          { d.message with
            data := some d.nextBuffer
            free
            length := data.length % 2 ^ 32
            header.data :=
              hton connMagic ++ hton authType ++ hton result ++ hton (data.length % 2 ^ 32) } }
      with hd'
    have hfits : Fits d' := by
      refine ⟨rfl, ?_, Nat.mod_lt _ (by decide), fun _ => ?_⟩
      · rw [← h.trailer, ← htrailer]
      · rw [if_neg (show d.state ≠ _ by rw [hstate]; decide), buffer_eq]
        simpa [hd'] using hlen
    exact (hfits.handing hstate (.inr rfl) hoff hinside).reset hok

lemma Safe.poll (h : Safe c) (hok : connPoll P c = .ok c') : Safe c' := by
  obtain ⟨hheader, htrailer, haccesses, -, hnew⟩ := newstate_spec c .reading
  unfold connPoll at hok
  simp only at hok
  generalize newstate c .reading = d at hok hheader htrailer haccesses hnew
  have hinside : ∀ a ∈ d.accesses, a.Inside := by
    rw [haccesses]
    exact h.inside
  split_ifs at hok with herr herr'
  · cases hok
    exact h
  · cases hok
    refine ⟨?_, ?_, hinside, fun hnone => ?_⟩
    · rw [hheader]
      exact h.header
    · rw [htrailer]
      exact h.trailer
    · rw [hnone] at herr'
      exact absurd herr' (by simp)
  · obtain ⟨hstate, hlength, hoff⟩ := hnew (by simpa using herr')
    have hfits : Fits d := by
      refine ⟨?_, ?_, ?_, ?_⟩
      · rw [hheader]
        exact h.header
      · rw [htrailer]
        exact h.trailer
      · rw [hlength]
        decide
      · rw [hlength]
        exact fun hlt => absurd hlt (lt_irrefl _)
    exact (hfits.handing hstate (.inl rfl) hoff hinside).reset hok

lemma Safe.read (h : Safe c) : Safe (connRead c).2 := by
  unfold connRead
  split_ifs with herr
  · exact h
  · obtain ⟨hheader, htrailer, haccesses, -, hnew⟩ := newstate_spec
      { c with
        message.data := none
        message.free := .static } .iodone
    refine ⟨?_, ?_, ?_, fun hnone hdir => ?_⟩
    · rw [hheader]
      exact h.header
    · rw [htrailer]
      exact h.trailer
    · rw [haccesses]
      exact h.inside
    · rw [(hnew hnone).1] at hdir
      simp at hdir

lemma Safe.enable (h : Safe c) {key : Bytes} {seqno : ℕ}
    (hok : micEnable c key state seqno = .ok c') : Safe c' := by
  have hkeeps := micEnable_keeps hok
  have hheader : c'.message.header = c.message.header := hkeeps.same (·.message.header)
  have haccesses : c'.accesses = c.accesses := hkeeps.same accesses
  have herrno : c'.errno = c.errno := hkeeps.same errno
  refine ⟨?_, hkeeps.trailer h.trailer, ?_, fun hnone hdir => ?_⟩
  · rw [hheader]
    exact h.header
  · rw [haccesses]
    exact h.inside
  · rw [herrno] at hnone
    rw [hkeeps.state] at hdir
    obtain ⟨pos, hpos⟩ := h.handing hnone hdir
    refine ⟨pos, hpos.of_keeps hkeeps ?_⟩
    -- the other direction is enabled
    unfold micEnable at hok
    rw [if_neg (by rw [hnone]; simp)] at hok
    split_ifs at hok with hsame
    cases state with
    | reading =>
      cases hok
      simp [Message.hasMic, hsame]
    | writing =>
      cases hok
      simp [Message.hasMic, hsame]
    | _ => cases hok

lemma Safe.free (h : Safe c) {buffer : ℕ} (hdata : c.message.data ≠ some buffer) :
    Safe { c with heap := Function.update c.heap buffer none } := by
  refine ⟨h.header, h.trailer, h.inside, fun hnone hdir => ?_⟩
  obtain ⟨pos, hpos⟩ := h.handing hnone hdir
  have hbuffer : ({ c with heap := Function.update c.heap buffer none } : Conn).buffer = c.buffer := by
    rw [buffer_eq, buffer_eq]
    cases hd : c.message.data with
    | none => rfl
    | some b =>
      have hne : b ≠ buffer := fun heq => hdata (by rw [hd, heq])
      simp [Function.update_of_ne hne]
  refine ⟨pos, hdir, hpos.at', ⟨hpos.fits.header, hpos.fits.trailer, hpos.fits.length_lt, ?_⟩,
    hpos.inside⟩
  rw [hbuffer]
  exact hpos.fits.data

lemma Safe.step (h : Safe c) (hop : op.Sized c) (hok : step P c op = .ok c') : Safe c' := by
  cases op with
  | write data authType result free => exact h.write hok
  | poll => exact h.poll hok
  | progress s events =>
    cases hprog : connProgress P c s events with
    | error e =>
      simp only [Wire.step, hprog] at hok
      cases hok
    | ok r =>
      simp only [Wire.step, hprog] at hok
      cases hok
      exact h.progress hop hprog
  | read =>
    cases hok
    exact h.read
  | maxlen n =>
    cases hok
    refine ⟨h.header, h.trailer, h.inside, fun hnone hdir => ?_⟩
    obtain ⟨pos, hpos⟩ := h.handing hnone hdir
    exact ⟨pos, hdir, hpos.at'.congr rfl rfl, ⟨hpos.fits.header, hpos.fits.trailer,
      hpos.fits.length_lt, hpos.fits.data⟩, hpos.inside⟩
  | callback set =>
    cases hok
    refine ⟨h.header, h.trailer, h.inside, fun hnone hdir => ?_⟩
    obtain ⟨pos, hpos⟩ := h.handing hnone hdir
    exact ⟨pos, hdir, hpos.at', ⟨hpos.fits.header, hpos.fits.trailer, hpos.fits.length_lt,
      hpos.fits.data⟩, hpos.inside⟩
  | enable key state seqno => exact h.enable hok
  | free buffer =>
    cases hok
    split_ifs with hdata
    · exact h
    · exact h.free hdata

lemma Run.safe (h : Run P c) : Safe c := by
  induction h with
  | fresh => exact ⟨rfl, rfl, fun a ha => absurd ha List.not_mem_nil, fun _ hdir => by cases hdir <;> contradiction⟩
  | step hrun hop hok ih => exact ih.step hop hok

/-! ## Rejected headers -/

/-- The next bytes complete a header that is not accepted. -/
def Rejects (c : Conn) (input : Bytes) : Prop :=
  c.state = .reading ∧ c.message.header.offset < headerLen ∧
    ¬ Message.accepts { c.message with header.data := (c.nextHeader input).data }

inductive Later (P : Ciphers) (c : Conn) : Conn → Prop
  | refl : Later P c c
  | step {c' c'' : Conn} {op : Op} (h : Later P c c') (hok : step P c' op = .ok c'') : Later P c c''

lemma Handing.loop_errno (h : Handing c pos) (hsized : ¬ Oversize c s.input)
    (hok : progressLoop P packets c s events = .ok (c', s')) (herr : c.errno.isSome) :
    c'.errno.isSome := by
  have hdone : ∀ {d : Conn}, d.errno.isSome → (progressDone d).errno.isSome := by
    intro d hd
    unfold progressDone
    split_ifs
    · exact hd
    · exact hd
    · exact hd
  induction packets generalizing c pos s events with
  | zero =>
    cases hok
    exact hdone herr
  | succ packets ih =>
    unfold progressLoop at hok
    split_ifs at hok with hnvec
    · cases hok
      exact hdone herr
    · cases hround : progressRound P c s events with
      | error e =>
        rw [hround] at hok
        cases hok
      | ok r =>
        rw [hround] at hok
        have hkeep := progressRound_errno h.dir h.at' h.fits hnvec hround herr
        cases h.round hnvec hsized hround with
        | returned hsafe =>
          cases hok
          exact hkeep
        | next hnext hpos => exact ih hnext (hnext.not_oversize hpos _) hok hkeep

lemma step_errno (h : c.errno.isSome) (hok : step P c op = .ok c') : c'.errno.isSome := by
  cases op with
  | write data authType result free =>
    have hnew := (newstate_spec c .writing).2.2.2.1 h
    simp only [step, connWrite, hnew, if_true] at hok
    cases hok
    exact hnew
  | poll =>
    simp only [step, connPoll, h, if_true] at hok
    cases hok
    exact h
  | progress s events =>
    simp only [step, connProgress, h, if_true] at hok
    cases hok
    exact h
  | read =>
    simp only [step, connRead, h, if_true] at hok
    cases hok
    exact h
  | maxlen n =>
    cases hok
    exact h
  | callback set =>
    cases hok
    exact h
  | enable key state seqno =>
    simp only [step, micEnable, h, if_true] at hok
    cases hok
    exact h
  | free buffer =>
    cases hok
    split_ifs
    · exact h
    · exact h

lemma Later.errno (h : Later P c c') (herr : c.errno.isSome) : c'.errno.isSome := by
  induction h with
  | refl => exact herr
  | step _ hok ih => exact step_errno ih hok

lemma Rejects.not_oversize (h : Rejects c input) : ¬ Oversize c input := by
  rintro ⟨-, -, -, hmagic, hlen, hmax⟩
  refine h.2.2 ⟨hmagic, hmax.imp id fun hle => ?_⟩
  show (c.nextHeader input).datalen ≤ _
  rw [hlen]
  exact hle

/-- The first round either leaves the header incomplete and returns, or breaks the connection. -/
theorem Handing.round_rejects (h : Handing c pos) (hrej : Rejects c s.input)
    (hok : progressRound P c s events = .ok r) :
    r.conn.errno.isSome ∨ ∃ d s', r = .returned d s' ∧ d.message.header.offset < headerLen := by
  obtain ⟨hstate, hoff, hbad⟩ := hrej
  have hpos : pos < headerLen := by
    have := h.at'.header
    omega
  have hne : c.message.nvec ≠ 0 := by
    intro hzero
    have := h.at'.nvec_eq_zero_iff.1 hzero
    unfold Message.total at this
    omega
  have hround : ReadRound P c.hand s events (progressRound P c s events) :=
    progressRound_reading hstate h.at' hne
  generalize progressRound P c s events = x at hround hok
  cases hround with
  | blocked hstuck =>
    cases hok
    exact .inr ⟨_, _, rfl, hoff⟩
  | failed hfail =>
    cases hok
    exact .inl rfl
  | @ended rest hinput hclosed =>
    have hdir : c.hand.state = .reading := hstate
    rcases afterZero_reading P s rest hdir with ⟨-, heq⟩ | ⟨-, heq⟩ | ⟨hge, -, -, -⟩
    · rw [heq] at hok
      cases hok
      exact .inr ⟨_, _, rfl, hoff⟩
    · rw [heq] at hok
      cases hok
      exact .inl rfl
    · exact absurd hoff (not_lt.2 hge)
  | @got rest n hrest hn hle hinput =>
    have hvec := h.at'.vectors_header hpos
    rw [hstate, if_neg (by decide)] at hvec
    have hsum : pos + n ≤ headerLen := by
      have hle' : n ≤ avail c.message.vectors := hle
      have hnil : avail [] = 0 := rfl
      rw [hvec, avail_cons] at hle'
      simp only at hle'
      omega
    have hlay : (c.hand.lay c.hand.message.vectors (s.input.take n)).blank = c.hand.blank :=
      blank_lay _ _ _
    have hd := h.hand.of_blank hlay
    have hd' : (c.hand.lay c.hand.message.vectors (s.input.take n)).state = .reading :=
      (same_of_blank hlay state).trans hstate
    by_cases hpart : pos + n < headerLen
    · -- the header is still incomplete
      obtain ⟨m', hslide, -, hat⟩ := slideWindow_header hd.at' hpart
      have hm' : m'.header.offset < headerLen := by
        rw [hat.header]
        omega
      rw [afterIo_of_pos hn, hslide] at hok
      simp only [Except.bind, hd', if_true, hm'] at hok
      cases hok
      exact .inr ⟨_, _, rfl, hm'⟩
    · -- the header is complete, and not accepted
      have heq : pos + n = headerLen := by omega
      refine .inl (afterIo_errno hn hok fun {d} hslide => ?_)
      rw [slideWindow_read hd.at' hd' hpos heq] at hslide
      cases hslide
      rcases allocData_cases { c.hand.lay c.hand.message.vectors (s.input.take n) with
          message.header.offset := headerLen } with ⟨-, e, halloc⟩ | ⟨hacc, -⟩
      · unfold opened
        rw [halloc]
        rfl
      · rw [h.hand.lay_complete hstate hpos heq hinput] at hacc
        exact absurd hacc hbad

lemma Safe.rejects (h : Safe c) (hrej : Rejects c s.input)
    (hok : connProgress P c s events = .ok (c', s'))
    (hcomplete : c'.message.header.offset = headerLen) : c'.errno.isSome := by
  unfold connProgress at hok
  split_ifs at hok with herr hcall hdir
  · cases hok
    exact herr
  · cases hok
    rfl
  · obtain ⟨pos, hpos⟩ := h.handing (by simpa using herr) hdir.symm
    unfold progressLoop at hok
    split_ifs at hok with hnvec
    · have hall := hpos.at'.nvec_eq_zero_iff.1 hnvec
      have hheader := hpos.at'.header
      have hlt := hrej.2.1
      unfold Message.total at hall
      omega
    · cases hround : progressRound P c s events with
      | error e =>
        rw [hround] at hok
        cases hok
      | ok r =>
        rw [hround] at hok
        have hsound := hpos.round hnvec hrej.not_oversize hround
        rcases hpos.round_rejects hrej hround with hsome | ⟨d, s'', rfl, hlt⟩
        · cases hsound with
          | returned hsafe =>
            cases hok
            exact hsome
          | next hnext hle => exact hnext.loop_errno (hnext.not_oversize hle _) hok hsome
        · cases hok
          omega
  · cases hok
    rfl

/-! ## Runs -/

/-- Every place that is handed to the stream or written by `alloc_data` lies inside a region, as long
as no accepted header announces `2 ^ 32 - 1` bytes; and a message whose header is rejected is never
read. -/
theorem run_inside (hrun : Run P c) :
    (∀ a ∈ c.accesses, a.Inside) ∧
      ∀ {s s' : Stream} {events : List Event} {c' c'' : Conn}, Rejects c s.input →
        connProgress P c s events = .ok (c', s') → c'.message.header.offset = headerLen →
        Later P c' c'' → (connRead c'').1 = none := by
  refine ⟨hrun.safe.inside, fun hrej hok hcomplete hlater => ?_⟩
  have herr := hlater.errno (hrun.safe.rejects hrej hok hcomplete)
  unfold connRead
  rw [if_pos herr]

/-- A message of two bytes. -/
theorem run_inside_two : ∃ c, Run Ciphers.plain c ∧ c.accesses.length = 3 ∧
    ∀ a ∈ c.accesses, a.Inside := by
  obtain ⟨c, hpoll, hsized, c', hprog, hlen⟩ : ∃ c, step plain fresh .poll = .ok c ∧
      (c.nextHeader (headerBytes 0 0 2 ++ [1, 2])).datalen ≠ 2 ^ 32 - 1 ∧
      ∃ c', step plain c
        (.progress ⟨headerBytes 0 0 2 ++ [1, 2], false, []⟩ [.some 15, .some 1]) = .ok c' ∧
      c'.accesses.length = 3 := ⟨_, rfl, by decide, _, rfl, by decide⟩
  have hpolled : Run plain c := .step .fresh (by trivial) hpoll
  have hrun : Run plain c' := by
    refine .step hpolled ?_ hprog
    rintro ⟨-, -, -, -, heq, -⟩
    exact hsized heq
  exact ⟨c', hrun, hlen, (run_inside hrun).1⟩

def oversizeHeader : Op :=
  .progress ⟨headerBytes 0 0 (2 ^ 32 - 1), false, []⟩ [.some 15]

/-- The NUL is stored beyond a buffer of size zero. -/
theorem run_outside_of_oversize :
    ∃ c, Later Ciphers.plain Conn.fresh c ∧ ∃ a ∈ c.accesses, ¬ a.Inside := by
  have hlog : (do
      let c ← step plain fresh .poll
      let c ← step plain c oversizeHeader
      return decide (⟨some 0, 2 ^ 32 - 1, 1, 2 ^ 32⟩ ∈ c.accesses)) = Except.ok true := by
    decide +kernel
  cases hpoll : step plain fresh .poll with
  | error e =>
    rw [hpoll] at hlog
    cases hlog
  | ok c =>
    cases hprog : step plain c oversizeHeader with
    | error e =>
      rw [hpoll] at hlog
      simp only [bind, Except.bind, hprog] at hlog
      cases hlog
    | ok c' =>
      rw [hpoll] at hlog
      simp only [bind, Except.bind, hprog, pure, Except.pure, Except.ok.injEq,
        decide_eq_true_eq] at hlog
      refine ⟨c', .step (.step .refl hpoll) hprog, _, hlog, ?_⟩
      rintro ⟨n, hn, hle, -⟩
      rw [← Option.some.inj hn] at hle
      exact absurd hle (by decide)

end Wire
end Unameit
