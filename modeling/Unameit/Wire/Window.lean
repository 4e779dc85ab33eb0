import Mathlib.Tactic.SplitIfs
import Unameit.Wire.Basic

/-!
# Wire.Window — the I/O vectors as a function of the position

The vectors of a message are recomputed step by step, but what they are depends only on how many
bytes of the message have been transferred (`planned`): the rest of the header, a window of the data
and, if the window reaches the end of the data, the trailer.  The first window is shorter than the
others.  `slide_window` keeps the vectors as planned (`slideData_spec`), as long as lengths are not
too large for an `int`; larger ones may lead to a wrong position, but never to other vectors.
-/

namespace Unameit
namespace Wire

open Function (update update_self update_of_ne)
open List

variable {x : ℤ} {v : Iovec} {rest : List Iovec} {k nio length off : ℕ} {mic : Bool} {data : Region}

open Message

/-! ## Headers -/

lemma ntoh_hton {n : ℕ} (h : n < 2 ^ 32) (rest : Bytes) : ntoh (hton n ++ rest) = n := by
  simp only [ntoh, hton, cons_append, nil_append, take_succ_cons, take_zero,
    foldl_cons, foldl_nil, UInt8.toNat_ofNat']
  omega

def headerBytes (authType result length : ℕ) : Bytes :=
  hton connMagic ++ hton authType ++ hton result ++ hton length

/-! ## The plan -/

def window (length off : ℕ) : ℕ :=
  if off = 0 then min length (connPktLen - headerLen) else min (length - off) connPktLen

def trailerPlan (mic : Bool) (off : ℕ) : List Iovec :=
  if mic ∧ off < micLen then [⟨.trailer, off, micLen - off⟩] else []

def dataPlan (data : Region) (length : ℕ) (mic : Bool) (off : ℕ) : List Iovec :=
  if off < length then
    ⟨data, off, window length off⟩ ::
      (if off + window length off = length then trailerPlan mic 0 else [])
  else trailerPlan mic (off - length)

def planned (data : Region) (length : ℕ) (mic : Bool) (state : ConnState) (pos : ℕ) : List Iovec :=
  if pos < headerLen then
    ⟨.header, pos, headerLen - pos⟩ ::
      (if state = .writing then dataPlan data length mic 0 else [])
  else dataPlan data length mic (pos - headerLen)

def Message.total (m : Message) (state : ConnState) : ℕ :=
  headerLen + m.length + if m.hasMic state then micLen else 0

structure AtPos (m : Message) (state : ConnState) (pos : ℕ) : Prop where
  le : pos ≤ m.total state
  vectors : m.vectors = planned m.dataRegion m.length (m.hasMic state) state pos
  header : m.header.offset = min pos headerLen
  offset : m.offset = min (pos - headerLen) m.length
  trailer : headerLen ≤ pos → m.hasMic state = true →
    (pos - headerLen < m.length → pos - headerLen + window m.length (pos - headerLen) = m.length) →
    m.trailer.offset = pos - headerLen - m.length

def Message.core (m : Message) : Message :=
  { m with
    iov := fun _ => ⟨.null, 0, 0⟩
    nvec := 0
    header.offset := 0
    offset := 0
    trailer.offset := 0 }

/-- The part of a message that its vectors depend on, apart from MICs. -/
def Message.shape (m : Message) : (ℕ → Iovec) × ℕ × Option ℕ × ℕ × ℕ × ℕ × ℕ :=
  (m.iov, m.nvec, m.data, m.length, m.header.offset, m.offset, m.trailer.offset)

variable {m m' : Message} {state : ConnState} {pos : ℕ}

lemma AtPos.congr (h : AtPos m state pos) (hmic : m'.hasMic state = m.hasMic state)
    (hshape : m'.shape = m.shape) : AtPos m' state pos := by
  simp only [shape, Prod.mk.injEq] at hshape
  obtain ⟨hiov, hnvec, hdata, hlength, hheader, hoffset, htrailer⟩ := hshape
  have hregion : m'.dataRegion = m.dataRegion := by
    unfold dataRegion
    rw [hdata]
  have hvectors : m'.vectors = m.vectors := by
    unfold Message.vectors
    rw [hiov, hnvec]
  refine ⟨?_, ?_, hheader.trans h.header, ?_, ?_⟩
  · have hle := h.le
    unfold total at hle ⊢
    rw [hmic, hlength]
    exact hle
  · rw [hvectors, hregion, hlength, hmic]
    exact h.vectors
  · rw [hoffset, hlength]
    exact h.offset
  · rw [hmic, hlength, htrailer]
    exact h.trailer

section

variable (h : m'.core = m.core)

include h

/-- What does not depend on the vectors and offsets is the same. -/
theorem Message.same_of_core {α : Type*} (f : Message → α)
    (hf : ∀ x, f x.core = f x := by exact fun _ => rfl) : f m' = f m := by
  rw [← hf m', h, hf m]

lemma Message.length_of_core : m'.length = m.length :=
  same_of_core h length

lemma Message.dataRegion_of_core : m'.dataRegion = m.dataRegion :=
  same_of_core h dataRegion

lemma Message.hasMic_of_core : m'.hasMic state = m.hasMic state :=
  same_of_core h (·.hasMic state)

lemma Message.total_of_core : m'.total state = m.total state :=
  same_of_core h (·.total state)

end

/-! ## Initialisation -/

lemma vectors_iovInitTrailer (m : Message) (state : ConnState) :
    (iovInitTrailer m state).vectors =
      (List.range (m.headerVecs + m.dataVecs)).map m.iov ++ trailerPlan (m.hasMic state) 0 := by
  unfold iovInitTrailer trailerPlan
  by_cases hmic : m.hasMic state = true
  · rw [if_pos hmic, if_pos ⟨hmic, by decide⟩]
    simp only [vectors, range_succ, map_append, map_cons, map_nil,
      update_self]
    congr 1
    refine map_congr_left fun i hi => ?_
    exact update_of_ne (ne_of_lt (mem_range.1 hi)) _ _
  · rw [if_neg hmic, if_neg fun h => hmic h.1, append_nil]
    rfl

lemma core_iovInitTrailer (m : Message) (state : ConnState) :
    (iovInitTrailer m state).core = m.core := by
  unfold iovInitTrailer
  split_ifs
  · rfl
  · rfl

lemma offsets_iovInitTrailer (m : Message) (state : ConnState) :
    (iovInitTrailer m state).header.offset = m.header.offset ∧
      (iovInitTrailer m state).offset = m.offset ∧
      (m.hasMic state = true → (iovInitTrailer m state).trailer.offset = 0) := by
  unfold iovInitTrailer
  split_ifs with h
  · exact ⟨rfl, rfl, fun _ => rfl⟩
  · exact ⟨rfl, rfl, fun hmic => absurd hmic h⟩

lemma map_range_update (iov : ℕ → Iovec) (n : ℕ) (v : Iovec) :
    (List.range n).map (update iov n v) = (List.range n).map iov :=
  map_congr_left fun _ hi => update_of_ne (ne_of_lt (mem_range.1 hi)) _ _

lemma map_range_succ_update (iov : ℕ → Iovec) (n : ℕ) (v : Iovec) :
    (List.range (n + 1)).map (update iov n v) = (List.range n).map iov ++ [v] := by
  rw [range_succ, map_append, map_range_update]
  simp

lemma vectors_iovInitData (m : Message) (state : ConnState) :
    (iovInitData m state).vectors = (List.range m.headerVecs).map m.iov ++
      dataPlan m.dataRegion m.length (m.hasMic state) 0 := by
  unfold iovInitData dataPlan window
  by_cases hlong : connPktLen - headerLen < m.length
  · have hpos : 0 < m.length := by omega
    rw [if_pos hlong, if_pos hpos, if_pos rfl, min_eq_right (le_of_lt hlong), if_neg (by omega)]
    exact map_range_succ_update _ _ _
  · rw [if_neg hlong, vectors_iovInitTrailer]
    by_cases hpos : 0 < m.length
    · rw [if_pos hpos, if_pos rfl, min_eq_left (by omega), if_pos (by omega)]
      have hvecs : dataVecs { m with
          offset := 0
          iov := update m.iov m.headerVecs ⟨m.dataRegion, 0, m.length⟩ } = 1 := if_pos hpos
      rw [hvecs]
      have hmap := map_range_succ_update m.iov m.headerVecs ⟨m.dataRegion, 0, m.length⟩
      simp only [headerVecs, hasMic] at hmap ⊢
      rw [hmap, append_assoc]
      rfl
    · rw [if_neg hpos]
      have hvecs : dataVecs { m with
          offset := 0
          iov := update m.iov m.headerVecs ⟨m.dataRegion, 0, m.length⟩ } = 0 := if_neg hpos
      rw [hvecs]
      have hmap := map_range_update m.iov m.headerVecs ⟨m.dataRegion, 0, m.length⟩
      have hzero : m.length = 0 := by omega
      simp only [headerVecs, hasMic, add_zero, hzero] at hmap ⊢
      rw [hmap]

lemma core_iovInitData (m : Message) (state : ConnState) : (iovInitData m state).core = m.core := by
  unfold iovInitData
  split_ifs
  · rfl
  · exact core_iovInitTrailer _ _

lemma offsets_iovInitData (m : Message) (state : ConnState) :
    (iovInitData m state).header.offset = m.header.offset ∧ (iovInitData m state).offset = 0 ∧
      (m.hasMic state = true → m.length ≤ connPktLen - headerLen →
        (iovInitData m state).trailer.offset = 0) := by
  unfold iovInitData
  split_ifs with h
  · exact ⟨rfl, rfl, fun _ hle => absurd h (by omega)⟩
  · obtain ⟨hheader, hoffset, htrailer⟩ := offsets_iovInitTrailer
      { m with
        offset := 0
        iov := update m.iov m.headerVecs ⟨m.dataRegion, 0, m.length⟩ } state
    exact ⟨hheader, hoffset, fun hmic _ => htrailer hmic⟩

lemma planned_of_le (data : Region) (length : ℕ) (mic : Bool) (h : headerLen ≤ pos) :
    planned data length mic state pos = dataPlan data length mic (pos - headerLen) :=
  if_neg (not_lt.2 h)

/-- After the header, to be at a position depends on the data and the trailer only. -/
theorem AtPos.of_le (hpos : headerLen ≤ pos) (hle : pos ≤ m.total state)
    (hvectors : m.vectors = dataPlan m.dataRegion m.length (m.hasMic state) (pos - headerLen))
    (hheader : m.header.offset = headerLen) (hoffset : m.offset = min (pos - headerLen) m.length)
    (htrailer : m.hasMic state = true →
      (pos - headerLen < m.length → pos - headerLen + window m.length (pos - headerLen) = m.length) →
      m.trailer.offset = pos - headerLen - m.length) : AtPos m state pos where
  le := hle
  vectors := by rw [planned_of_le _ _ _ hpos, hvectors]
  header := by rw [hheader, min_eq_right hpos]
  offset := hoffset
  trailer _ := htrailer

lemma atPos_iovInitData (h : m.header.offset = headerLen) :
    AtPos (iovInitData m state) state headerLen := by
  have hcore := core_iovInitData m state
  have hlength := length_of_core hcore
  have hmic : (iovInitData m state).hasMic state = m.hasMic state := hasMic_of_core hcore
  obtain ⟨hheader, hoffset, htrailer⟩ := offsets_iovInitData m state
  have hvecs : m.headerVecs = 0 := if_neg (by omega)
  refine AtPos.of_le (Nat.le_refl _) ?_ ?_ (hheader.trans h) (by simp [hoffset]) ?_
  · unfold total
    omega
  · rw [vectors_iovInitData, hvecs, hlength, hmic, dataRegion_of_core hcore]
    simp
  · intro hm hend
    rw [hmic] at hm
    rw [htrailer hm]
    · omega
    · by_contra hlong
      have hwindow := hend (by omega)
      simp only [Nat.sub_self, window, if_true] at hwindow
      omega

lemma atPos_iovInitTrailer (h : m.header.offset = headerLen) (hoff : m.offset = m.length) :
    AtPos (iovInitTrailer m state) state (headerLen + m.length) := by
  have hcore := core_iovInitTrailer m state
  have hlength := length_of_core hcore
  have hmic : (iovInitTrailer m state).hasMic state = m.hasMic state := hasMic_of_core hcore
  obtain ⟨hheader, hoffset, htrailer⟩ := offsets_iovInitTrailer m state
  have hvecs : m.headerVecs + m.dataVecs = 0 := by
    simp [headerVecs, dataVecs, h, hoff]
  refine AtPos.of_le (by omega) ?_ ?_ (hheader.trans h) ?_ ?_
  · unfold total
    omega
  · rw [vectors_iovInitTrailer, hvecs, hlength, hmic]
    simp [dataPlan]
  · rw [hoffset, hlength, hoff]
    simp
  · intro hm _
    rw [hmic] at hm
    rw [htrailer hm]
    omega

/-! ## The trailer -/

lemma AtPos.nvec (h : AtPos m state pos) :
    m.nvec = (planned m.dataRegion m.length (m.hasMic state) state pos).length := by
  rw [← h.vectors]
  simp [Message.vectors]

lemma AtPos.vectors_trailer (h : AtPos m state pos) (hpos : headerLen + m.length ≤ pos) :
    m.vectors = trailerPlan (m.hasMic state) (pos - headerLen - m.length) := by
  rw [h.vectors, planned_of_le _ _ _ (by omega)]
  exact if_neg (by omega)

lemma Message.iov_zero (h : m.vectors = v :: rest) : m.iov 0 = v ∧ m.nvec = rest.length + 1 := by
  have hlen : m.nvec = rest.length + 1 := by
    simpa [vectors] using congrArg List.length h
  refine ⟨?_, hlen⟩
  have hhead := congrArg List.head? h
  simpa [vectors, hlen, range_succ_eq_map] using hhead

lemma AtPos.of_trailer (hmic : m.hasMic state = true) (hk : k ≤ micLen)
    (hvectors : m.vectors = trailerPlan true k) (hheader : m.header.offset = headerLen)
    (hoffset : m.offset = m.length) (htrailer : m.trailer.offset = k) :
    AtPos m state (headerLen + m.length + k) := by
  have hsub : headerLen + m.length + k - headerLen = m.length + k := by omega
  refine AtPos.of_le (by omega) ?_ ?_ hheader ?_ ?_
  · simp [total, hmic, hk]
  · rw [hsub, hvectors, dataPlan, if_neg (by omega), hmic, Nat.add_sub_cancel_left]
  · omega
  · intro _ _
    omega

/-- `slide_window` in the trailer: a number of bytes that is too large fails an assertion. -/
theorem slideTrailer_spec (h : AtPos m state pos) (hpos : headerLen + m.length ≤ pos) {nio : ℤ}
    (hlo : 0 ≤ nio ∨ nio = -2 ^ 31) (hhi : nio < 2 ^ 31) :
    (slideTrailer m nio = .error .assertion ∧ (nio < 0 ∨ m.total state < pos + nio)) ∨
      ∃ m' pos', slideTrailer m nio = .ok m' ∧ m'.core = m.core ∧ AtPos m' state pos' ∧
        pos ≤ pos' ∧ (0 ≤ nio → pos + nio ≤ m.total state → pos' = pos + nio) := by
  unfold slideTrailer
  by_cases hzero : nio = 0
  · rw [if_pos hzero]
    exact .inr ⟨m, pos, rfl, rfl, h, le_refl _, fun _ _ => by omega⟩
  rw [if_neg hzero]
  by_cases hnvec : m.nvec = 0
  · rw [if_pos hnvec]
    refine .inr ⟨m, pos, rfl, rfl, h, le_refl _, fun hge hle => ?_⟩
    -- nothing is left
    have hempty : trailerPlan (m.hasMic state) (pos - headerLen - m.length) = [] := by
      rw [← h.vectors_trailer hpos]
      simp [vectors, hnvec]
    have hno : ¬ (m.hasMic state = true ∧ pos - headerLen - m.length < micLen) := by
      intro hmic
      simp [trailerPlan, hmic] at hempty
    have htotal : m.total state ≤ pos := by
      unfold total
      split_ifs with hmic
      · have hge : micLen ≤ pos - headerLen - m.length := not_lt.1 fun hlt => hno ⟨hmic, hlt⟩
        omega
      · omega
    omega
  rw [if_neg hnvec]
  have hmic : m.hasMic state = true ∧ pos - headerLen - m.length < micLen := by
    by_contra hno
    have hempty := h.vectors_trailer hpos
    rw [trailerPlan, if_neg hno] at hempty
    exact hnvec (by simpa [vectors] using hempty)
  obtain ⟨k, rfl⟩ : ∃ k, pos = headerLen + m.length + k := ⟨pos - headerLen - m.length, by omega⟩
  have hk : headerLen + m.length + k - headerLen - m.length = k := by omega
  rw [hk] at hmic
  have htotal : m.total state = headerLen + m.length + micLen := by simp [total, hmic.1]
  have hoffset : m.trailer.offset = k := by
    rw [h.trailer (by omega) hmic.1 fun hlt => by omega, hk]
  have hvec : m.vectors = [⟨.trailer, k, micLen - k⟩] := by
    rw [h.vectors_trailer hpos, hk, trailerPlan, if_pos hmic]
  obtain ⟨hiov, hone⟩ := iov_zero hvec
  have hheader : m.header.offset = headerLen := by
    rw [h.header]
    omega
  have hdata : m.offset = m.length := by
    rw [h.offset]
    omega
  have hmicLen : micLen = 16 := rfl
  simp only [hoffset]
  rcases hlo with hge | hmin
  · have htail : int32 ((micLen : ℤ) - k - nio) = micLen - k - nio :=
      int32_of_lt (by omega) (by omega)
    rw [htail]
    obtain ⟨n, rfl⟩ := Int.eq_ofNat_of_zero_le hge
    by_cases hpart : (0 : ℤ) < micLen - k - n
    · -- a part of the trailer
      rw [if_pos hpart]
      refine .inr ⟨_, headerLen + m.length + k + n, rfl, rfl, ?_, by omega, fun _ _ => by omega⟩
      rw [add_assoc _ k n]
      refine AtPos.of_trailer hmic.1 (by omega) ?_ hheader hdata (by simp)
      have hlt : k + n < micLen := by omega
      simp [vectors, advance, hone, hiov, trailerPlan, hlt, Nat.sub_add_eq]
    rw [if_neg hpart]
    by_cases hdone : (micLen : ℤ) - k - n = 0
    · rw [if_pos hdone]
      refine .inr ⟨_, headerLen + m.length + micLen, rfl, rfl, ?_, by omega, fun _ _ => by omega⟩
      refine AtPos.of_trailer hmic.1 (le_refl _) ?_ hheader hdata rfl
      simp [vectors, trailerPlan]
    · rw [if_neg hdone]
      exact .inl ⟨rfl, .inr (by omega)⟩
  · have htail : int32 ((micLen : ℤ) - k - nio) < 0 := by
      rw [int32_of_ge (by omega) (by omega)]
      omega
    rw [if_neg (by omega), if_neg (by omega)]
    exact .inl ⟨rfl, .inl (by omega)⟩

/-! ## The data -/

def avail (vs : List Iovec) : ℕ :=
  (vs.map Iovec.len).sum

lemma avail_cons (v : Iovec) (vs : List Iovec) : avail (v :: vs) = v.len + avail vs := by
  simp [avail]

lemma avail_trailerPlan : avail (trailerPlan mic k) = if mic then micLen - k else 0 := by
  unfold trailerPlan
  by_cases h : mic ∧ k < micLen
  · rw [if_pos h, if_pos h.1]
    simp [avail]
  · split_ifs with hmic
    · have hge : micLen ≤ k := not_lt.1 fun hlt => h ⟨hmic, hlt⟩
      simp [avail, Nat.sub_eq_zero_of_le hge]
    · rfl

lemma window_le : window length off ≤ length - off := by
  unfold window
  split_ifs with h
  · omega
  · omega

lemma window_le_pkt : window length off ≤ connPktLen := by
  unfold window
  split_ifs with h
  · exact le_trans (min_le_right _ _) (Nat.sub_le _ _)
  · exact min_le_right _ _

lemma window_pos (h : off < length) : 0 < window length off := by
  have hpkt : connPktLen = 4096 := rfl
  have hheader : headerLen = 16 := rfl
  unfold window
  split_ifs with hzero
  · omega
  · omega

lemma avail_trailerPlan_le : avail (trailerPlan mic k) ≤ micLen := by
  rw [avail_trailerPlan]
  split_ifs
  · omega
  · omega

lemma avail_dataPlan_le_window :
    avail (dataPlan data length mic off) ≤ window length off + micLen := by
  have ht : ∀ k, avail (trailerPlan mic k) ≤ micLen := fun _ => avail_trailerPlan_le
  unfold dataPlan
  split_ifs with hoff hend
  · rw [avail_cons]
    exact Nat.add_le_add_left (ht 0) _
  · exact Nat.le_add_right _ _
  · exact le_trans (ht _) (Nat.le_add_left _ _)

/-- One I/O transfers little more than a packet. -/
theorem avail_dataPlan_le : avail (dataPlan data length mic off) ≤ connPktLen + micLen :=
  Nat.le_trans avail_dataPlan_le_window (Nat.add_le_add_right window_le_pkt _)

/-- The first packet leaves room for the header. -/
theorem avail_dataPlan_zero_le (data : Region) (length : ℕ) (mic : Bool) :
    headerLen + avail (dataPlan data length mic 0) ≤ connPktLen + micLen := by
  have hle : avail (dataPlan data length mic 0) ≤ window length 0 + micLen := avail_dataPlan_le_window
  have hw : window length 0 ≤ connPktLen - headerLen := min_le_right _ _
  have hpkt : headerLen ≤ connPktLen := by decide
  omega

lemma AtPos.vectors_data (h : AtPos m state pos) (hpos : headerLen ≤ pos)
    (hlt : pos - headerLen < m.length) :
    m.vectors = ⟨m.dataRegion, pos - headerLen, window m.length (pos - headerLen)⟩ ::
      (if pos - headerLen + window m.length (pos - headerLen) = m.length then
        trailerPlan (m.hasMic state) 0 else []) := by
  rw [h.vectors, planned_of_le _ _ _ hpos]
  exact if_pos hlt

/-- A transfer up to `pos` is recorded; lengths that are too large for an `int` can fail an assertion
or lead to another position. -/
def Slides (r : Except Abort Message) (m : Message) (state : ConnState) (pos : ℕ) : Prop :=
  (r = .error .assertion ∧ 2 ^ 31 ≤ m.length) ∨
    ∃ m' pos', r = .ok m' ∧ m'.core = m.core ∧ AtPos m' state pos' ∧ (m.length < 2 ^ 31 → pos' = pos)

/-- The end of the data is reached with `nio` bytes more than are left of them. -/
theorem slideData_end (state : ConnState) (hheader : m.header.offset = headerLen) {nio : ℤ}
    (hlo : 0 ≤ nio ∨ nio = -2 ^ 31) (hhi : nio < 2 ^ 31) :
    (slideTrailer (iovInitTrailer { m with offset := m.length } state) nio = .error .assertion ∧
        (nio < 0 ∨ m.total state < headerLen + m.length + nio)) ∨
      ∃ m' pos', slideTrailer (iovInitTrailer { m with offset := m.length } state) nio = .ok m' ∧
        m'.core = m.core ∧ AtPos m' state pos' ∧
        (0 ≤ nio → headerLen + m.length + nio ≤ m.total state →
          pos' = headerLen + m.length + nio) := by
  have hat : AtPos (iovInitTrailer { m with offset := m.length } state) state
      (headerLen + m.length) := atPos_iovInitTrailer hheader rfl
  have hcore : (iovInitTrailer { m with offset := m.length } state).core = m.core :=
    core_iovInitTrailer _ _
  have hlength := length_of_core hcore
  have htotal : (iovInitTrailer { m with offset := m.length } state).total state = m.total state :=
    total_of_core hcore
  rcases slideTrailer_spec hat (by omega) hlo hhi with ⟨herr, hbad⟩ | ⟨m', pos', hok, hc, hat', -, hp⟩
  · rw [htotal] at hbad
    exact .inl ⟨herr, by push_cast at hbad; exact hbad⟩
  · rw [htotal] at hp
    exact .inr ⟨m', pos', hok, hc.trans hcore, hat', fun hge hle => by
      have := hp hge (by push_cast; exact hle)
      exact this⟩

/-- A part of the data has been transferred: the next window. -/
theorem slideData_part (h : AtPos m state (headerLen + off)) (hnio : 0 < nio)
    (hlt : off + nio < m.length) (hsmall : m.length - off - nio < 2 ^ 31) :
    ∃ m', slideData m state nio = .ok m' ∧ m'.core = m.core ∧
      AtPos m' state (headerLen + (off + nio)) := by
  have hsub : headerLen + off - headerLen = off := Nat.add_sub_cancel_left _ _
  have hsub' : headerLen + (off + nio) - headerLen = off + nio := Nat.add_sub_cancel_left _ _
  have hoff : m.offset = off := by
    rw [h.offset]
    omega
  have hheader : m.header.offset = headerLen := by
    rw [h.header]
    omega
  have hvec := h.vectors_data (by omega) (by omega)
  rw [hsub] at hvec
  obtain ⟨hiov, hnvec⟩ := iov_zero hvec
  have htail : int32 ((m.length : ℤ) - off - nio) = (m.length - off - nio : ℕ) := by
    rw [int32_of_lt (by omega) (by omega)]
    omega
  have hwindow : window m.length (off + nio) = min (m.length - (off + nio)) connPktLen :=
    if_neg (by omega)
  have htotal : headerLen + (off + nio) ≤ m.total state := by
    unfold total
    omega
  have hmin : off + nio = min (off + nio) m.length := by omega
  unfold slideData
  rw [if_neg (by omega), if_pos (by omega)]
  simp only [hoff, htail, hiov, Int.toNat_natCast]
  rw [if_pos (by omega)]
  by_cases hbig : (connPktLen : ℤ) < (m.length - off - nio : ℕ)
  · -- the window does not reach the end of the data, and neither did the last one
    have hold : off + window m.length off ≠ m.length := by
      have hle : window m.length off ≤ connPktLen := window_le_pkt
      omega
    have hnext : off + nio + window m.length (off + nio) ≠ m.length := by omega
    rw [if_neg hold] at hnvec
    rw [if_pos hbig]
    refine ⟨_, rfl, rfl, AtPos.of_le (by omega) htotal ?_ hheader ?_ fun _ hend => ?_⟩
    · have hmin' : window m.length (off + nio) = connPktLen := by omega
      rw [hmin'] at hnext
      simp [vectors, hnvec, dataPlan, hlt, hnext, hmin', dataRegion]
    · rw [hsub']
      exact hmin
    · rw [hsub'] at hend
      exact absurd (hend hlt) hnext
  · have hmin' : window m.length (off + nio) = m.length - off - nio := by omega
    rw [if_neg hbig]
    set m₀ : Message :=
      { m with
        offset := off + nio
        iov := update m.iov 0 ⟨m.dataRegion, off + nio, m.length - off - nio⟩ } with hm₀
    have hcore : (iovInitTrailer m₀ state).core = m.core := core_iovInitTrailer _ _
    have hlength := length_of_core hcore
    have hmic : (iovInitTrailer m₀ state).hasMic state = m.hasMic state :=
      hasMic_of_core hcore
    obtain ⟨hh, ho, ht⟩ := offsets_iovInitTrailer m₀ state
    refine ⟨_, rfl, hcore, AtPos.of_le (by omega) ?_ ?_ (hh.trans hheader) ?_ fun hm _ => ?_⟩
    · rw [total_of_core hcore]
      exact htotal
    · have hvecs : m₀.headerVecs + m₀.dataVecs = 1 := by
        simp [headerVecs, dataVecs, hm₀, hheader, hlt]
      rw [hsub', vectors_iovInitTrailer, hvecs, hlength, hmic, dataRegion_of_core hcore,
        dataPlan, if_pos hlt, hmin', if_pos (by omega)]
      rfl
    · rw [ho, hsub', hlength]
      exact hmin
    · rw [hmic] at hm
      rw [ht hm]
      omega

lemma slideData_of_tail {tail : ℤ} (hnio : 0 < nio) (hdata : off < m.length)
    (hoff : m.offset = off) (htail : int32 ((m.length : ℤ) - off - nio) = tail) (hle : tail ≤ 0) :
    slideData m state nio =
      slideTrailer (iovInitTrailer { m with offset := m.length } state) (int32 (-tail)) := by
  unfold slideData
  rw [if_neg (by omega), if_pos (by omega)]
  simp only [hoff, htail]
  exact if_neg (by omega)

lemma slideData_spec (h : AtPos m state pos) (hpos : headerLen ≤ pos) (hlen : m.length < 2 ^ 32)
    (hnio : nio ≤ avail m.vectors) : Slides (slideData m state nio) m state (pos + nio) := by
  by_cases hzero : nio = 0
  · subst hzero
    exact .inr ⟨m, pos, rfl, rfl, h, fun _ => rfl⟩
  obtain ⟨off, rfl⟩ : ∃ off, pos = headerLen + off := ⟨pos - headerLen, by omega⟩
  have hsub : headerLen + off - headerLen = off := Nat.add_sub_cancel_left _ _
  have hheader : m.header.offset = headerLen := by
    rw [h.header]
    omega
  have hmicLen : micLen = 16 := rfl
  by_cases hdata : off < m.length
  · have hoff : m.offset = off := by
      rw [h.offset]
      omega
    have hvec := h.vectors_data hpos (by omega)
    rw [hsub] at hvec
    have hw : window m.length off ≤ m.length - off := window_le
    by_cases hpart : off + nio < m.length ∧ m.length - off - nio < 2 ^ 31
    · obtain ⟨m', hok, hcore, hat⟩ := slideData_part h (by omega) hpart.1 hpart.2
      exact .inr ⟨m', _, hok, hcore, hat, fun _ => by omega⟩
    by_cases hover : off + nio < m.length
    · -- the rest is too large for an `int`, and counts as negative
      have htail : int32 ((m.length : ℤ) - off - nio) = m.length - off - nio - 2 ^ 32 :=
        int32_of_ge (by omega) (by omega)
      have hneg : ∀ x : ℤ, 0 < x → x ≤ 2 ^ 31 →
          (0 ≤ int32 x ∨ int32 x = -2 ^ 31) ∧ int32 x < 2 ^ 31 := by
        intro x hx hle
        by_cases hlt : x < 2 ^ 31
        · rw [int32_of_lt (by omega) hlt]
          omega
        · rw [int32_of_ge (by omega) (by omega)]
          omega
      obtain ⟨hlo, hhi⟩ := hneg (-(m.length - off - nio - 2 ^ 32)) (by omega) (by omega)
      rw [slideData_of_tail (by omega) (by omega) hoff htail (by omega)]
      rcases slideData_end state hheader hlo hhi with ⟨herr, -⟩ | ⟨m', pos', hok, hcore, hat, -⟩
      · exact .inl ⟨herr, by omega⟩
      · exact .inr ⟨m', pos', hok, hcore, hat, fun hlt => by omega⟩
    · have hend : off + window m.length off = m.length := by
        by_contra hne
        rw [hvec, if_neg hne] at hnio
        simp only [avail, map_cons, map_nil, sum_cons, sum_nil] at hnio
        omega
      have htotal : headerLen + off + nio ≤ m.total state ∧ off + nio ≤ m.length + micLen := by
        rw [hvec, if_pos hend] at hnio
        simp only [avail_cons, avail_trailerPlan] at hnio
        unfold total
        split_ifs at hnio ⊢
        · omega
        · omega
      have htail : int32 ((m.length : ℤ) - off - nio) = m.length - off - nio :=
        int32_of_lt (by omega) (by omega)
      have hneg : int32 (-((m.length : ℤ) - off - nio)) = -(m.length - off - nio) :=
        int32_of_lt (by omega) (by omega)
      rw [slideData_of_tail (by omega) (by omega) hoff htail (by omega), hneg]
      have hlo : 0 ≤ -((m.length : ℤ) - off - nio) ∨ -((m.length : ℤ) - off - nio) = -2 ^ 31 := by
        omega
      rcases slideData_end state hheader hlo (by omega) with
        ⟨-, hbad⟩ | ⟨m', pos', hok, hcore, hat, hp⟩
      · omega
      · exact .inr ⟨m', pos', hok, hcore, hat, fun _ => by
          omega⟩
  · have hplan := h.vectors_trailer (by omega)
    have hunfold : slideData m state nio = slideTrailer m nio := by
      unfold slideData
      rw [if_neg (by omega), if_neg (by rw [h.offset]; omega)]
    rw [hplan, avail_trailerPlan] at hnio
    have htotal : headerLen + off + nio ≤ m.total state := by
      unfold total
      split_ifs at hnio ⊢
      · omega
      · omega
    have hsmall : nio ≤ micLen := by
      split_ifs at hnio
      · omega
      · omega
    rw [hunfold]
    have hlo : (0 : ℤ) ≤ nio ∨ (nio : ℤ) = -2 ^ 31 := by omega
    rcases slideTrailer_spec h (by omega) hlo (by omega) with
      ⟨-, hbad⟩ | ⟨m', pos', hok, hcore, hat, -, hp⟩
    · omega
    · exact .inr ⟨m', pos', hok, hcore, hat, fun _ => by
        omega⟩

/-! ## The header -/

lemma AtPos.vectors_header (h : AtPos m state pos) (hpos : pos < headerLen) :
    m.vectors = ⟨.header, pos, headerLen - pos⟩ ::
      (if state = .writing then dataPlan m.dataRegion m.length (m.hasMic state) 0 else []) := by
  rw [h.vectors]
  exact if_pos hpos

lemma AtPos.offsets_header (h : AtPos m state pos) (hpos : pos < headerLen) :
    m.header.offset = pos ∧ m.offset = 0 := by
  rw [h.header, h.offset]
  omega

lemma core_iovInitHeader (m : Message) (state : ConnState) :
    (iovInitHeader m state).core = m.core := by
  unfold iovInitHeader
  split_ifs
  · exact core_iovInitData _ _
  · rfl

lemma atPos_iovInitHeader (hoff : m.offset = 0) : AtPos (iovInitHeader m state) state 0 := by
  unfold iovInitHeader
  by_cases hw : state = .writing
  · set m₀ : Message :=
      { m with
        header.offset := 0
        iov := update m.iov 0 ⟨.header, 0, headerLen⟩
        nvec := 1 } with hm₀
    simp only [if_pos hw]
    have hcore := core_iovInitData m₀ state
    obtain ⟨hh, ho, -⟩ := offsets_iovInitData m₀ state
    refine ⟨Nat.zero_le _, ?_, by rw [hh]; rfl, by rw [ho]; simp, fun hle => absurd hle (by decide)⟩
    have hvecs : m₀.headerVecs = 1 := by simp [headerVecs, hm₀, headerLen]
    rw [vectors_iovInitData, hvecs, length_of_core hcore, hasMic_of_core hcore,
      dataRegion_of_core hcore]
    simp [planned, hw, hm₀, headerLen]
  · simp only [if_neg hw]
    refine ⟨Nat.zero_le _, ?_, rfl, by simp [hoff], fun hle => absurd hle (by decide)⟩
    simp [vectors, planned, hw, headerLen]

lemma Message.vectors_advance (h : m.vectors = v :: rest) (nio : ℕ) :
    (m.advance nio).vectors = ⟨v.region, v.off + nio, v.len - nio⟩ :: rest := by
  obtain ⟨hiov, hnvec⟩ := iov_zero h
  have htail : (range rest.length).map (m.iov ∘ Nat.succ) = rest := by
    simpa [vectors, hnvec, range_succ_eq_map] using congrArg tail h
  have hkeep : ∀ v', update m.iov 0 v' ∘ Nat.succ = m.iov ∘ Nat.succ := fun v' =>
    funext fun i => update_of_ne (Nat.succ_ne_zero i) _ _
  simpa [vectors, advance, hnvec, hiov, range_succ_eq_map, hkeep] using htail

variable {c : Conn}

/-- A part of the header has been transferred. -/
theorem slideWindow_header (h : AtPos c.message c.state pos) (hlt : pos + nio < headerLen) :
    ∃ m', slideWindow c nio = .ok { c with message := m' } ∧ m'.core = c.message.core ∧
      AtPos m' c.state (pos + nio) := by
  have hheaderLen : headerLen = 16 := rfl
  obtain ⟨hheader, hoff⟩ := h.offsets_header (by omega)
  have hvec := h.vectors_header (by omega)
  have htail : int32 ((headerLen : ℤ) - pos - nio) = headerLen - pos - nio :=
    int32_of_lt (by omega) (by omega)
  unfold slideWindow
  rw [if_pos (by omega)]
  simp only [hheader, htail, Int.toNat_natCast]
  rw [if_pos (by omega)]
  refine ⟨_, rfl, rfl, ?_, ?_, ?_, ?_, fun hle => absurd hle (by omega)⟩
  · unfold total
    omega
  · have hnext := vectors_advance hvec nio
    rw [Nat.sub_sub] at hnext
    unfold planned
    rw [if_pos hlt]
    exact hnext
  · show pos + nio = _
    omega
  · show c.message.offset = _
    omega

/-- A header is accepted if the magic number is right and the data are not too long. -/
def Message.accepts (m : Message) : Prop :=
  m.header.magic = connMagic ∧ (m.maxlen = 0 ∨ m.header.datalen ≤ m.maxlen)

/-- `alloc_data`: the header is rejected, or there is a new buffer. -/
theorem allocData_cases (c : Conn) :
    (¬ c.message.accepts ∧ ∃ e, allocData c = { c with errno := some e }) ∨
      (c.message.accepts ∧
        allocData c =
          { c with
            message :=
              { c.message with
                length := c.message.header.datalen
                authType := c.message.header.authType
                data := some c.nextBuffer
                free := .dynamic }
            heap := update c.heap c.nextBuffer
              (some (replicate ((c.message.header.datalen + 1) % 2 ^ 32) 0))
            nextBuffer := c.nextBuffer + 1
            accesses := c.accesses ++
              [⟨some ((c.message.header.datalen + 1) % 2 ^ 32), c.message.header.datalen, 1,
                c.message.header.datalen + 1⟩] }) := by
  unfold allocData accepts
  by_cases hmagic : c.message.header.magic = connMagic
  · by_cases hmax : c.message.maxlen ≠ 0 ∧ c.message.maxlen < c.message.header.datalen
    · refine .inl ⟨fun h => by omega, .size, ?_⟩
      rw [if_neg (not_not.2 hmagic), if_pos hmax]
    · refine .inr ⟨⟨hmagic, by omega⟩, ?_⟩
      rw [if_neg (not_not.2 hmagic), if_neg hmax]
      have hzeros : ∀ n off, overwrite (replicate n (0 : UInt8)) off [0] = replicate n 0 :=
        fun n off => overwrite_replicate n off 1 0
      simp [Conn.ckalloc, Conn.store, Conn.size, hzeros]
  · exact .inl ⟨fun h => hmagic h.1, .magic, if_pos hmagic⟩

lemma state_allocData (c : Conn) : (allocData c).state = c.state := by
  rcases allocData_cases c with ⟨-, e, h⟩ | ⟨-, h⟩
  · rw [h]
  · rw [h]

/-- `alloc_data` once the header is complete, and the vectors for the data. -/
def Conn.opened (c : Conn) : Conn :=
  { allocData { c with message.header.offset := headerLen } with
    message :=
      iovInitData (allocData { c with message.header.offset := headerLen }).message .reading }

lemma slideWindow_read (h : AtPos c.message c.state pos) (hstate : c.state = .reading)
    (hpos : pos < headerLen) (heq : pos + nio = headerLen) : slideWindow c nio = .ok c.opened := by
  obtain ⟨hheader, hoff⟩ := h.offsets_header hpos
  have hvec := h.vectors_header hpos
  rw [hstate] at hvec
  obtain ⟨-, hnvec⟩ := iov_zero hvec
  have htail : int32 ((headerLen : ℤ) - c.message.header.offset - nio) = 0 := by
    rw [int32_of_lt (by omega) (by omega)]
    omega
  have hkeep : (allocData { c with message.header.offset := headerLen }).state = .reading :=
    (state_allocData _).trans hstate
  unfold slideWindow
  rw [if_pos (by omega)]
  simp only [htail]
  have hzero : int32 (-0) = 0 := int32_of_lt (by omega) (by omega)
  rw [if_neg (by omega), if_pos hstate, if_pos ⟨hnvec, rfl⟩, hkeep]
  rfl

lemma slideWindow_spec (h : AtPos c.message c.state pos) (hlen : c.message.length < 2 ^ 32)
    (hnio : nio ≤ avail c.message.vectors)
    (hcase : c.state = .reading → pos < headerLen → pos + nio < headerLen) :
    (slideWindow c nio = .error .assertion ∧ 2 ^ 31 ≤ c.message.length) ∨
      ∃ m' pos', slideWindow c nio = .ok { c with message := m' } ∧
        m'.core = c.message.core ∧ AtPos m' c.state pos' ∧
        (c.message.length < 2 ^ 31 → pos' = pos + nio) := by
  have hset : ∀ {r : Except Abort Message} {m : Message}, m.core = c.message.core →
      Slides r m c.state (pos + nio) →
      (c.setMessage r = .error .assertion ∧ 2 ^ 31 ≤ c.message.length) ∨
        ∃ m' pos', c.setMessage r = .ok { c with message := m' } ∧ m'.core = c.message.core ∧
          AtPos m' c.state pos' ∧ (c.message.length < 2 ^ 31 → pos' = pos + nio) := by
    intro r m hcore hr
    rw [← length_of_core hcore]
    rcases hr with ⟨rfl, hbig⟩ | ⟨m', pos', rfl, hcore', hat, hp⟩
    · exact .inl ⟨rfl, hbig⟩
    · exact .inr ⟨m', pos', rfl, hcore'.trans hcore, hat, hp⟩
  by_cases hbody : headerLen ≤ pos
  · have hunfold : slideWindow c nio = c.setMessage (slideData c.message c.state nio) := by
      exact if_neg (by rw [h.header]; omega)
    rw [hunfold]
    exact hset rfl (slideData_spec h hbody hlen hnio)
  by_cases hpart : pos + nio < headerLen
  · obtain ⟨m', hok, hcore, hat⟩ := slideWindow_header h hpart
    exact .inr ⟨m', pos + nio, hok, hcore, hat, fun _ => rfl⟩
  · -- the header has been written, and perhaps a part of the data
    have hstate : c.state ≠ .reading := fun hr => hpart (hcase hr (by omega))
    set m₀ : Message := { c.message with header.offset := headerLen } with hm₀
    have hcore : (iovInitData m₀ c.state).core = c.message.core := core_iovInitData _ _
    have hat : AtPos (iovInitData m₀ c.state) c.state headerLen := atPos_iovInitData rfl
    have hbound : nio - (headerLen - pos) ≤ avail (iovInitData m₀ c.state).vectors ∧
        nio ≤ headerLen + connPktLen + micLen := by
      have hvecs : m₀.headerVecs = 0 := if_neg (lt_irrefl _)
      have hle : avail (dataPlan c.message.dataRegion c.message.length (c.message.hasMic c.state) 0)
          ≤ connPktLen + micLen := avail_dataPlan_le
      have hplan : (iovInitData m₀ c.state).vectors =
          dataPlan c.message.dataRegion c.message.length (c.message.hasMic c.state) 0 := by
        rw [vectors_iovInitData]
        rfl
      rw [h.vectors_header (by omega), avail_cons] at hnio
      rw [hplan]
      by_cases hw : c.state = .writing
      · rw [if_pos hw] at hnio
        simp only at hnio
        omega
      · rw [if_neg hw] at hnio
        have hnil : avail [] = 0 := rfl
        simp only [hnil] at hnio
        omega
    have hheaderLen : headerLen = 16 := rfl
    have hpkt : connPktLen = 4096 := rfl
    have hmicLen : micLen = 16 := rfl
    have hunfold : slideWindow c nio = c.setMessage
        (slideData (iovInitData m₀ c.state) c.state (pos + nio - headerLen : ℕ)) := by
      have hheader := (h.offsets_header (by omega)).1
      have htail : int32 ((headerLen : ℤ) - pos - nio) = headerLen - pos - nio :=
        int32_of_lt (by omega) (by omega)
      have hneg : int32 (-((headerLen : ℤ) - pos - nio)) = (pos + nio - headerLen : ℕ) := by
        rw [int32_of_lt (by omega) (by omega)]
        omega
      unfold slideWindow
      rw [if_pos (by omega)]
      simp only [hheader, htail, hneg]
      rw [if_neg (by omega), if_neg hstate]
      rfl
    rw [hunfold]
    have hslide := slideData_spec hat (le_refl _) (by rw [length_of_core hcore]; exact hlen)
      (show pos + nio - headerLen ≤ _ by omega)
    rw [show headerLen + (pos + nio - headerLen) = pos + nio by omega] at hslide
    exact hset hcore hslide

end Wire
end Unameit
