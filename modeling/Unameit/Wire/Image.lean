import Unameit.Wire.Window

/-!
# Wire.Image — what the I/O vectors describe

The header, the data and the trailer of a message lie in different places.  Laid end to end they are
the `image` of the message.  The vectors after `pos` bytes cover the image from `pos` on without gaps
(`AtPos.tiles`): writing them out gives the next bytes of the image, and reading into them overwrites
the image at `pos`.
-/

namespace Unameit
namespace Wire

open List

variable {v : Iovec} {b : Bytes} {m : Message} {p : ℕ} {vs : List Iovec} {state : ConnState}

open Message Conn

/-! ## Contents and sizes -/

/-- The connection with its contents erased; what is left are sizes. -/
def Conn.blank (c : Conn) : Conn :=
  { c with
    message.header.data := List.replicate c.message.header.data.length 0
    message.trailer.mic := List.replicate c.message.trailer.mic.length 0
    heap := fun b => (c.heap b).map fun l => List.replicate l.length 0 }

lemma blank_store (c : Conn) (v : Iovec) (b : Bytes) : (c.store v b).blank = c.blank := by
  unfold store
  split
  · rfl
  · simp [blank]
  · rename_i n _
    have hheap : (fun i => (Function.update c.heap n
        ((c.heap n).map fun l => overwrite l v.off b) i).map fun l => replicate l.length 0) =
          fun i => (c.heap i).map fun l => replicate l.length (0 : UInt8) := by
      funext i
      by_cases hi : i = n
      · subst hi
        simp [Option.map_map, Function.comp_def]
      · rw [Function.update_of_ne hi]
    simp only [blank]
    rw [hheap]
  · simp [blank]

lemma store_nil (c : Conn) (v : Iovec) : c.store v [] = c := by
  unfold store
  split
  · rfl
  · simp
  · simp
  · simp

def Conn.lay : Conn → List Iovec → Bytes → Conn
  | c, [], _ => c
  | c, v :: vs, b => Conn.lay (c.store v (b.take v.len)) vs (b.drop v.len)

lemma lay_nil (c : Conn) (vs : List Iovec) : c.lay vs [] = c := by
  induction vs with
  | nil => rfl
  | cons v vs ih =>
    unfold lay
    rw [take_nil, drop_nil, store_nil, ih]

lemma blank_lay (c : Conn) (vs : List Iovec) (b : Bytes) : (c.lay vs b).blank = c.blank := by
  induction vs generalizing c b with
  | nil => rfl
  | cons v vs ih =>
    unfold lay
    rw [ih, blank_store]

lemma lay_cons_of_le (c : Conn) (vs : List Iovec) (h : b.length ≤ v.len) :
    c.lay (v :: vs) b = c.lay [v] b := by
  unfold lay
  rw [drop_eq_nil_of_le h, lay_nil, lay_nil]

lemma lay_cons_take (c : Conn) (v : Iovec) (vs : List Iovec) (b : Bytes) (k : ℕ) :
    c.lay (v :: vs) (b.take (v.len + k)) =
      (c.lay [v] (b.take v.len)).lay vs ((b.drop v.len).take k) := by
  have htake : (b.take (v.len + k)).take v.len = (b.take v.len).take v.len := by
    rw [take_take, take_take]
    congr 1
    omega
  have hdrop : (b.take (v.len + k)).drop v.len = (b.drop v.len).take k := by
    rw [drop_take, Nat.add_sub_cancel_left]
  simp only [lay, htake, hdrop]

variable {c c' : Conn} {pos : ℕ}

def Conn.buffer (c : Conn) : Bytes :=
  c.bytes c.message.dataRegion

lemma Conn.buffer_eq (c : Conn) : c.buffer = (c.message.data.bind c.heap).getD [] := by
  unfold buffer dataRegion
  cases c.message.data with
  | none => rfl
  | some b => rfl

lemma buffer_allocData (h : c.message.accepts) :
    (allocData c).buffer = List.replicate ((c.message.header.datalen + 1) % 2 ^ 32) 0 := by
  rcases allocData_cases c with ⟨hrej, -⟩ | ⟨-, heq⟩
  · exact absurd h hrej
  · rw [heq, buffer_eq]
    simp

/-- The regions are as large as the vectors need them to be. -/
structure Fits (c : Conn) : Prop where
  header : c.message.header.data.length = headerLen
  trailer : c.message.trailer.mic.length = micLen
  length_lt : c.message.length < 2 ^ 32
  data : 0 < c.message.length →
    c.message.length + (if c.state = .reading then 1 else 0) ≤ c.buffer.length

/-- Data that are not empty lie in a buffer. -/
theorem Fits.exists_buffer (hfits : Fits c) (hpos : 0 < c.message.length) :
    ∃ n l, c.message.data = some n ∧ c.heap n = some l ∧ c.message.length ≤ l.length := by
  have hroom : c.message.length ≤ c.buffer.length := by
    have := hfits.data hpos
    omega
  rw [buffer_eq] at hroom
  cases hn : c.message.data with
  | none =>
    rw [hn] at hroom
    exact absurd hroom (by simp; omega)
  | some n =>
    cases hl : c.heap n with
    | none =>
      rw [hn, Option.bind_some, hl] at hroom
      exact absurd hroom (by simp; omega)
    | some l =>
      rw [hn, Option.bind_some, hl] at hroom
      exact ⟨n, l, rfl, hl, hroom⟩

lemma length_bytes_blank (c : Conn) (r : Region) :
    (c.blank.bytes r).length = (c.bytes r).length := by
  cases r with
  | null => rfl
  | header => simp [bytes, blank]
  | data b => cases h : c.heap b <;> simp [bytes, blank, h]
  | trailer => simp [bytes, blank]

/-- What does not depend on the bytes that are stored is the same. -/
theorem same_of_blank {α : Type*} (h : c'.blank = c.blank) (f : Conn → α)
    (hf : ∀ d, f d.blank = f d := by exact fun _ => rfl) : f c' = f c := by
  rw [← hf c', h, hf c]

lemma Fits.of_blank (h : c'.blank = c.blank) (hc : Fits c) : Fits c' := by
  have hheader : c'.message.header.data.length = c.message.header.data.length := by
    exact same_of_blank h (·.message.header.data.length) (by simp [blank])
  have htrailer : c'.message.trailer.mic.length = c.message.trailer.mic.length := by
    exact same_of_blank h (·.message.trailer.mic.length) (by simp [blank])
  have hlength : c'.message.length = c.message.length := same_of_blank h (·.message.length)
  have hstate : c'.state = c.state := same_of_blank h state
  have hbuffer : c'.buffer.length = c.buffer.length := by
    have hregion : c'.message.dataRegion = c.message.dataRegion :=
      same_of_blank h (·.message.dataRegion)
    unfold buffer
    rw [← length_bytes_blank, h, hregion, length_bytes_blank]
  refine ⟨hheader.trans hc.header, htrailer.trans hc.trailer, ?_, ?_⟩
  · rw [hlength]
    exact hc.length_lt
  · rw [hlength, hstate, hbuffer]
    exact hc.data

lemma AtPos.of_blank (h : c'.blank = c.blank) (hc : AtPos c.message c.state pos) :
    AtPos c'.message c'.state pos := by
  have hstate : c'.state = c.state := same_of_blank h state
  rw [hstate]
  exact hc.congr
    (same_of_blank h (·.message.hasMic c.state))
    (same_of_blank h (·.message.shape))

lemma buffer_of_core (h : m.core = c.message.core) :
    ({ c with message := m } : Conn).buffer = c.buffer := by
  rw [buffer_eq, buffer_eq]
  exact congrArg (fun d : Option ℕ => (d.bind c.heap).getD [])
    (congrArg data h : m.core.data = c.message.core.data)

lemma Fits.of_core (hc : Fits c) (h : m.core = c.message.core) : Fits { c with message := m } := by
  have hheader : m.header.data = c.message.header.data := same_of_core h (·.header.data)
  have htrailer : m.trailer.mic = c.message.trailer.mic := same_of_core h (·.trailer.mic)
  have hbuffer := buffer_of_core h
  have hlength := length_of_core h
  refine ⟨?_, ?_, ?_, ?_⟩
  · rw [hheader]
    exact hc.header
  · rw [htrailer]
    exact hc.trailer
  · rw [hlength]
    exact hc.length_lt
  · rw [hbuffer, hlength]
    exact hc.data

/-! ## The image -/

def Conn.image (c : Conn) : Bytes :=
  c.message.header.data ++ (c.buffer.take c.message.length ++
    (if c.message.hasMic c.state then c.message.trailer.mic else []))

lemma Fits.length_data (h : Fits c) :
    (c.buffer.take c.message.length).length = c.message.length := by
  have := h.data
  rw [length_take]
  omega

lemma Fits.length_image (h : Fits c) : c.image.length = c.message.total c.state := by
  simp only [image, total, length_append, h.header, h.length_data, add_assoc]
  split_ifs
  · rw [h.trailer]
  · rfl

/-- A vector describes the bytes from position `p` of the image on. -/
inductive Covers (c : Conn) : Iovec → ℕ → Prop
  | header {off len : ℕ} (h : off + len ≤ headerLen) : Covers c ⟨.header, off, len⟩ off
  | data {off len : ℕ} (h : off + len ≤ c.message.length) (hlen : 0 < len) :
    Covers c ⟨c.message.dataRegion, off, len⟩ (headerLen + off)
  | trailer {off len : ℕ} (h : off + len ≤ micLen) (hmic : c.message.hasMic c.state = true) :
    Covers c ⟨.trailer, off, len⟩ (headerLen + c.message.length + off)

def Tiles (c : Conn) : List Iovec → ℕ → Prop
  | [], _ => True
  | v :: vs, p => Covers c v p ∧ Tiles c vs (p + v.len)

lemma Covers.of_blank (h : c'.blank = c.blank) (hv : Covers c v p) : Covers c' v p := by
  have hlength : c'.message.length = c.message.length := same_of_blank h (·.message.length)
  have hregion : c'.message.dataRegion = c.message.dataRegion :=
    same_of_blank h (·.message.dataRegion)
  have hmic' : c'.message.hasMic c'.state = c.message.hasMic c.state :=
    same_of_blank h (fun d : Conn => d.message.hasMic d.state)
  cases hv with
  | header h => exact .header h
  | data h hlen =>
    rw [← hregion]
    exact .data (by omega) hlen
  | trailer h hmic =>
    rw [← hlength]
    exact .trailer h (hmic'.trans hmic)

lemma Tiles.of_blank (h : c'.blank = c.blank) (hvs : Tiles c vs p) : Tiles c' vs p := by
  induction vs generalizing p with
  | nil => trivial
  | cons v vs ih => exact ⟨hvs.1.of_blank h, ih hvs.2⟩

/-! ## The vectors of a position -/

lemma tiles_trailerPlan (c : Conn) (k : ℕ) :
    Tiles c (trailerPlan (c.message.hasMic c.state) k) (headerLen + c.message.length + k) := by
  unfold trailerPlan
  split_ifs with h
  · exact ⟨.trailer (by omega) h.1, trivial⟩
  · trivial

lemma tiles_dataPlan (c : Conn) (off : ℕ) :
    Tiles c (dataPlan c.message.dataRegion c.message.length (c.message.hasMic c.state) off)
      (headerLen + off) := by
  unfold dataPlan
  by_cases hlt : off < c.message.length
  · rw [if_pos hlt]
    have hle : window c.message.length off ≤ c.message.length - off := window_le
    refine ⟨.data (by omega) (window_pos hlt), ?_⟩
    split_ifs with hend
    · have hp : headerLen + off + window c.message.length off = headerLen + c.message.length + 0 := by
        omega
      rw [hp]
      exact tiles_trailerPlan c 0
    · trivial
  · rw [if_neg hlt]
    have htile := tiles_trailerPlan c (off - c.message.length)
    rw [add_assoc, Nat.add_sub_cancel' (by omega)] at htile
    exact htile

/-- The vectors after `pos` bytes cover the image from there on. -/
theorem AtPos.tiles (h : AtPos c.message c.state pos) : Tiles c c.message.vectors pos := by
  rw [h.vectors]
  unfold planned
  by_cases hpos : pos < headerLen
  · rw [if_pos hpos]
    refine ⟨.header (by omega), ?_⟩
    split_ifs
    · have htile := tiles_dataPlan c 0
      rw [← Nat.add_sub_cancel' (le_of_lt hpos)] at htile
      exact htile
    · trivial
  · rw [if_neg hpos]
    have htile := tiles_dataPlan c (pos - headerLen)
    rw [Nat.add_sub_cancel' (by omega)] at htile
    exact htile

lemma pos_len_of_covers (hfits : Fits c) (h : Covers c v p) : p + v.len ≤ c.image.length := by
  rw [hfits.length_image]
  unfold total
  cases h with
  | header h => exact le_trans h (by omega)
  | @data off len h hlen =>
    show headerLen + off + len ≤ _
    omega
  | @trailer off len h hmic =>
    rw [if_pos hmic]
    show headerLen + c.message.length + off + len ≤ _
    omega

lemma len_pos_of_mem_dataPlan {data : Region} {length off : ℕ} {mic : Bool}
    (hv : v ∈ dataPlan data length mic off) : 0 < v.len := by
  have htrailer : ∀ {k}, v ∈ trailerPlan mic k → 0 < v.len := by
    intro k hv
    unfold trailerPlan at hv
    split_ifs at hv with h
    · rw [mem_singleton.1 hv]
      exact Nat.sub_pos_of_lt h.2
    · exact absurd hv not_mem_nil
  unfold dataPlan at hv
  split_ifs at hv with hlt hend
  · rcases mem_cons.1 hv with rfl | hv
    · exact window_pos hlt
    · exact htrailer hv
  · rw [mem_singleton.1 hv]
    exact window_pos hlt
  · exact htrailer hv

lemma AtPos.len_pos (h : AtPos m state pos) : ∀ v ∈ m.vectors, 0 < v.len := by
  intro v hv
  rw [h.vectors] at hv
  unfold planned at hv
  split_ifs at hv with hpos hw
  · rcases mem_cons.1 hv with rfl | hv
    · exact Nat.sub_pos_of_lt hpos
    · exact len_pos_of_mem_dataPlan hv
  · rw [mem_singleton.1 hv]
    exact Nat.sub_pos_of_lt hpos
  · exact len_pos_of_mem_dataPlan hv

/-- There are vectors until everything has been transferred. -/
theorem AtPos.nvec_eq_zero_iff (h : AtPos m state pos) : m.nvec = 0 ↔ pos = m.total state := by
  have hle := h.le
  rw [h.nvec, length_eq_zero_iff]
  unfold planned dataPlan trailerPlan
  unfold total at hle ⊢
  by_cases hpos : pos < headerLen
  · rw [if_pos hpos]
    exact iff_of_false (cons_ne_nil _ _) (by omega)
  rw [if_neg hpos]
  by_cases hdata : pos - headerLen < m.length
  · rw [if_pos hdata]
    exact iff_of_false (cons_ne_nil _ _) (by omega)
  rw [if_neg hdata]
  by_cases hmic : m.hasMic state = true
  · rw [if_pos hmic] at hle
    simp only [hmic, true_and, if_true]
    by_cases hlt : pos - headerLen - m.length < micLen
    · rw [if_pos hlt]
      exact iff_of_false (cons_ne_nil _ _) (by omega)
    · rw [if_neg hlt]
      exact iff_of_true rfl (by omega)
  · rw [if_neg hmic] at hle
    rw [if_neg fun h => hmic h.1, if_neg hmic]
    exact iff_of_true rfl (by omega)

/-- At the beginning of the trailer. -/
theorem AtPos.avail_trailer (h : AtPos m state pos) (hheader : headerLen ≤ m.header.offset)
    (hdata : m.length ≤ m.offset) (htrailer : m.trailer.offset = 0) (hne : m.nvec ≠ 0) :
    avail m.vectors = micLen := by
  rw [h.header] at hheader
  rw [h.offset] at hdata
  have hvec := h.vectors_trailer (by omega)
  have hmic : m.hasMic state = true := by
    by_contra hno
    rw [trailerPlan, if_neg fun h => hno h.1] at hvec
    exact hne (by simpa [Message.vectors] using hvec)
  have hk := h.trailer (by omega) hmic fun hlt => by omega
  rw [hvec, avail_trailerPlan, if_pos hmic, ← hk, htrailer, Nat.sub_zero]

lemma Message.vectors_ne_nil (h : m.nvec ≠ 0) : m.vectors ≠ [] := by
  intro hnil
  exact h (by simpa [vectors] using hnil)

/-! ## Writing and reading vectors -/

/-- The bytes that a vector describes are those of the image. -/
theorem Covers.fetch (hfits : Fits c) (h : Covers c v p) :
    c.fetch v = (c.image.drop p).take v.len := by
  have hheader := hfits.header
  have hdata := hfits.length_data
  unfold Conn.fetch Conn.image
  cases h with
  | @header _ len h =>
    show (c.message.header.data.drop p).take len = take len _
    rw [drop_append_of_le_length (by omega), take_append_of_le_length (by simp; omega)]
  | @data off len h hlen =>
    show (c.buffer.drop off).take len = take len _
    rw [← hheader, drop_length_add_append, drop_append_of_le_length (by omega),
      take_append_of_le_length (by rw [length_drop]; omega), drop_take,
      take_take, min_eq_left (by omega)]
  | @trailer off len h hmic =>
    show (c.message.trailer.mic.drop off).take len = take len _
    rw [if_pos hmic, ← hheader, add_assoc, drop_length_add_append, drop_append,
      hdata, Nat.add_sub_cancel_left]
    have hnil : (c.buffer.take c.message.length).drop (c.message.length + off) = [] :=
      drop_eq_nil_of_le (by omega)
    rw [hnil, nil_append]

/-- What is read into a vector goes to its place in the image. -/
theorem Covers.image_store (hfits : Fits c) (h : Covers c v p) (hb : b.length ≤ v.len) :
    (c.store v b).image = overwrite c.image p b := by
  have hheader := hfits.header
  have hdata := hfits.length_data
  have htrailer := hfits.trailer
  cases h with
  | @header _ len h =>
    have hle : p + b.length ≤ headerLen := Nat.le_trans (Nat.add_le_add_left hb _) h
    have hbuffer : (c.store ⟨.header, p, len⟩ b).buffer = c.buffer := by
      rw [buffer_eq, buffer_eq]
      rfl
    unfold image
    rw [overwrite_append_left _ _ (by omega), hbuffer]
    rfl
  | @data off len h hlen =>
    have hle : off + b.length ≤ c.message.length := Nat.le_trans (Nat.add_le_add_left hb _) h
    obtain ⟨n, l, hn, hl, hroom⟩ := hfits.exists_buffer (by omega)
    have hregion : c.message.dataRegion = .data n := by
      unfold dataRegion
      rw [hn]
    have hl' : c.buffer = l := by
      rw [buffer_eq, hn, Option.bind_some, hl]
      rfl
    have hbuffer : (c.store ⟨c.message.dataRegion, off, len⟩ b).buffer = overwrite l off b := by
      rw [buffer_eq, hregion]
      simp [store, hn, hl]
    rw [hl'] at hdata
    unfold image
    rw [hbuffer, hl', ← hheader, overwrite_append_right _ _ (by rw [length_append]; omega),
      overwrite_append_left _ _ (by omega), ← take_overwrite_of_le hle hroom, hregion]
    rfl
  | @trailer off len h hmic =>
    have hle : off + b.length ≤ micLen := Nat.le_trans (Nat.add_le_add_left hb _) h
    have hright := overwrite_append_right (c.message.header.data ++ c.buffer.take c.message.length)
      c.message.trailer.mic (show off + b.length ≤ _ by omega)
    rw [length_append, hheader, hdata, append_assoc, append_assoc] at hright
    have hbuffer : (c.store ⟨.trailer, off, len⟩ b).buffer = c.buffer := by
      rw [buffer_eq, buffer_eq]
      rfl
    unfold image
    rw [if_pos hmic, hright, hbuffer]
    exact congrArg _ (congrArg _ (if_pos hmic))

lemma AtPos.lay_header (h : AtPos c.message c.state pos) (hstate : c.state = .reading)
    (hpos : pos < headerLen) (hb : b.length ≤ headerLen - pos) :
    c.lay c.message.vectors b =
      { c with message.header.data := overwrite c.message.header.data pos b } := by
  have hvec := h.vectors_header hpos
  rw [hstate] at hvec
  rw [hvec]
  unfold lay
  rw [take_of_length_le hb]
  rfl

/-- What lies behind the data of a buffer is left alone. -/
theorem Covers.drop_store (hfits : Fits c) (h : Covers c v p) (hb : b.length ≤ v.len) :
    (c.store v b).buffer.drop c.message.length = c.buffer.drop c.message.length := by
  cases h with
  | header h =>
    rw [buffer_eq, buffer_eq]
    rfl
  | @data off len h hlen =>
    have hle : off + b.length ≤ c.message.length := Nat.le_trans (Nat.add_le_add_left hb _) h
    obtain ⟨n, l, hn, hl, hroom⟩ := hfits.exists_buffer (by omega)
    have hregion : c.message.dataRegion = .data n := by
      unfold dataRegion
      rw [hn]
    have hbuffer : (c.store ⟨c.message.dataRegion, off, len⟩ b).buffer = overwrite l off b := by
      rw [buffer_eq, hregion]
      simp [store, hn, hl]
    have hl' : c.buffer = l := by
      rw [buffer_eq, hn, Option.bind_some, hl]
      rfl
    rw [hbuffer, hl', drop_overwrite (by omega) hle]
  | trailer h hmic =>
    rw [buffer_eq, buffer_eq]
    rfl

section

variable (hfits : Fits c) (h : Tiles c vs p)

include hfits h

lemma Tiles.drop_lay :
    (c.lay vs b).buffer.drop c.message.length = c.buffer.drop c.message.length := by
  induction vs generalizing c p b with
  | nil => rfl
  | cons v vs ih =>
    have hblank := blank_store c v (b.take v.len)
    have hlength : (c.store v (b.take v.len)).message.length = c.message.length :=
      same_of_blank hblank (·.message.length)
    have hrest := ih (hfits.of_blank hblank) (h.2.of_blank hblank) (b := b.drop v.len)
    rw [hlength] at hrest
    exact hrest.trans (h.1.drop_store hfits (length_take_le _ _))

lemma Tiles.le (hp : p ≤ c.image.length) : p + avail vs ≤ c.image.length := by
  induction vs generalizing p with
  | nil => exact hp
  | cons v vs ih =>
    have := ih h.2 (pos_len_of_covers hfits h.1)
    rw [avail_cons]
    omega

/-- Writing out the vectors gives the next bytes of the image. -/
theorem Tiles.fetch : vs.flatMap c.fetch = (c.image.drop p).take (avail vs) := by
  induction vs generalizing p with
  | nil => rfl
  | cons v vs ih =>
    rw [flatMap_cons, ih h.2, h.1.fetch hfits, avail_cons, take_add, drop_drop]

/-- Reading into the vectors overwrites the next bytes of the image. -/
theorem Tiles.image_lay (hp : p ≤ c.image.length) (hb : b.length ≤ avail vs) :
    (c.lay vs b).image = overwrite c.image p b := by
  induction vs generalizing c p b with
  | nil =>
    have hnil : b = [] := eq_nil_of_length_eq_zero (by simpa [avail] using hb)
    rw [hnil, overwrite_nil]
    rfl
  | cons v vs ih =>
    have hblank := blank_store c v (b.take v.len)
    have hfits' := hfits.of_blank hblank
    have htake : (b.take v.len).length ≤ v.len := length_take_le _ _
    have himage := h.1.image_store hfits htake
    have hlen := pos_len_of_covers hfits h.1
    rw [avail_cons] at hb
    unfold lay
    rw [ih hfits' (h.2.of_blank hblank) (by rw [himage, length_overwrite]; exact hlen)
      (by rw [length_drop]; omega), himage]
    by_cases hshort : b.length ≤ v.len
    · rw [take_of_length_le hshort, drop_eq_nil_of_le hshort, overwrite_nil]
    · have hle := h.le hfits hp
      rw [avail_cons] at hle
      have hk : (b.take v.len).length = v.len := by
        rw [length_take]
        omega
      nth_rewrite 2 [← hk]
      rw [overwrite_overwrite (by rw [hk, length_drop]; omega), take_append_drop]

end

/-! ## Streams -/

def Moves (events : List Event) : Prop :=
  ∃ n rest, events = .some n :: rest

inductive Reads (c : Conn) (s : Stream) (events : List Event) (vs : List Iovec) :
    ℤ × Conn × Stream × List Event → Prop
  | blocked {rest : List Event} (hrest : rest ⊆ events) (hstuck : ¬ (Moves events ∧ s.input ≠ [])) :
    Reads c s events vs (-2, c, s, rest)
  | failed {rest : List Event} (hrest : rest ⊆ events) (hfail : .fail ∈ events) :
    Reads c s events vs (-1, c, s, rest)
  | ended {rest : List Event} (hrest : rest ⊆ events) (hinput : s.input = [])
    (hclosed : s.closed = true) : Reads c s events vs (0, c, s, rest)
  | got {rest : List Event} {n : ℕ} (hrest : rest ⊆ events) (hpos : 0 < n) (hle : n ≤ avail vs)
    (hinput : n ≤ s.input.length) :
    Reads c s events vs
      (n, c.lay vs (s.input.take n), { s with input := s.input.drop n }, rest)

lemma recv_reads (c : Conn) (s : Stream) (events : List Event) (hlen : 0 < v.len) :
    Reads c s events [v] (recv c s events v) := by
  have hstuck : ∀ {e : Event} {rest : List Event}, (∀ n, e ≠ .some n) →
      ¬ (Moves (e :: rest) ∧ s.input ≠ []) := by
    rintro e rest he ⟨⟨n, rest', heq⟩, -⟩
    exact he n (cons_eq_cons.1 heq).1
  cases events with
  | nil => exact .blocked (List.Subset.refl _) fun ⟨⟨n, rest, h⟩, _⟩ => nomatch h
  | cons e rest =>
    cases e with
    | block => exact .blocked (subset_cons_self _ _) (hstuck fun _ h => nomatch h)
    | zero => exact .blocked (subset_cons_self _ _) (hstuck fun _ h => nomatch h)
    | fail => exact .failed (subset_cons_self _ _) mem_cons_self
    | some n =>
      unfold recv
      by_cases hin : s.input = []
      · simp only [if_pos hin]
        by_cases hclosed : s.closed = true
        · rw [if_pos hclosed]
          exact .ended (subset_cons_self _ _) hin hclosed
        · rw [if_neg hclosed]
          exact .blocked (subset_cons_self _ _) fun h => h.2 hin
      · simp only [if_neg hin]
        have hinput : 0 < s.input.length := length_pos_of_ne_nil hin
        have hk : (s.input.take (min (n + 1) v.len)).length =
            min (min (n + 1) v.len) s.input.length := length_take
        have htake : s.input.take (s.input.take (min (n + 1) v.len)).length =
            s.input.take (min (n + 1) v.len) := by
          rw [hk, ← take_eq_take_min]
        have hlay : c.lay [v] (s.input.take (s.input.take (min (n + 1) v.len)).length) =
            c.store v (s.input.take (min (n + 1) v.len)) := by
          rw [htake]
          unfold lay
          rw [take_of_length_le (by omega)]
          rfl
        rw [← hlay]
        exact .got (subset_cons_self _ _) (by omega) (by rw [avail_cons]; omega) (by omega)

/-- The loop of `Unameit_Stream_Readv` once something has been read. -/
theorem readvLoop_of_pos (c : Conn) (s : Stream) (events : List Event) (hvs : ∀ v ∈ vs, 0 < v.len)
    {total : ℕ} (htotal : 0 < total) :
    ∃ n rest, rest ⊆ events ∧ n ≤ avail vs ∧ n ≤ s.input.length ∧
      readvLoop c s events vs total =
        (((total + n : ℕ) : ℤ), c.lay vs (s.input.take n), { s with input := s.input.drop n }, rest) := by
  induction vs generalizing c s events total with
  | nil => exact ⟨0, events, List.Subset.refl _, Nat.zero_le _, Nat.zero_le _, rfl⟩
  | cons v vs ih =>
    have hnone : ∀ rest : List Event, ((total : ℤ), c, s, rest) =
        (((total + 0 : ℕ) : ℤ), c.lay (v :: vs) (s.input.take 0),
          { s with input := s.input.drop 0 }, rest) := by
      intro rest
      rw [take_zero, lay_nil]
      rfl
    unfold readvLoop
    have hrecv := recv_reads c s events (hvs v mem_cons_self)
    generalize recv c s events v = r at hrecv
    cases hrecv with
    | @blocked rest hrest hstuck =>
      refine ⟨0, rest, hrest, Nat.zero_le _, Nat.zero_le _, ?_⟩
      simp only
      rw [if_pos (by omega), if_neg (by omega), hnone]
    | @failed rest hrest hfail =>
      refine ⟨0, rest, hrest, Nat.zero_le _, Nat.zero_le _, ?_⟩
      simp only
      rw [if_pos (by omega), if_neg (by omega), hnone]
    | @ended rest hrest hinput hclosed =>
      have hlen := hvs v mem_cons_self
      refine ⟨0, rest, hrest, Nat.zero_le _, Nat.zero_le _, ?_⟩
      simp only
      rw [if_neg (by omega), if_pos (by omega), Int.add_zero, hnone]
    | @got rest n hrest hpos hle hinput =>
      have hn : n ≤ v.len := by simpa [avail] using hle
      simp only
      by_cases hshort : (n : ℤ) ≠ v.len
      · rw [if_pos hshort]
        refine ⟨n, rest, hrest, by rw [avail_cons]; omega, hinput, ?_⟩
        rw [lay_cons_of_le c vs (by rw [length_take]; omega)]
        rfl
      · rw [if_neg hshort]
        have hfull : n = v.len := by omega
        obtain ⟨k, rest', hrest', hk, hk', heq⟩ := ih (c.lay [v] (s.input.take n))
          { s with input := s.input.drop n } rest (fun w hw => hvs w (mem_cons_of_mem _ hw))
          (show 0 < total + n by omega)
        refine ⟨n + k, rest', fun e he => hrest (hrest' he), by rw [avail_cons]; omega, ?_, ?_⟩
        · simp only [length_drop] at hk'
          omega
        · subst hfull
          rw [lay_cons_take, ← add_assoc, ← drop_drop]
          exact heq

lemma streamReadv_reads (c : Conn) (s : Stream) (events : List Event)
    (hvs : ∀ v ∈ c.message.vectors, 0 < v.len) (hne : c.message.vectors ≠ []) :
    Reads c s events c.message.vectors (streamReadv c s events) := by
  unfold streamReadv
  obtain ⟨v, vs, hvec⟩ := exists_cons_of_ne_nil hne
  obtain ⟨hiov, hnvec⟩ := iov_zero hvec
  rw [hvec] at hvs ⊢
  have hlen := hvs v mem_cons_self
  by_cases hone : c.message.nvec = 1
  · have hnil : vs = [] := eq_nil_of_length_eq_zero (by omega)
    rw [if_pos hone, hiov, hnil]
    exact recv_reads c s events hlen
  rw [if_neg hone]
  unfold readvLoop
  have hrecv := recv_reads c s events hlen
  generalize recv c s events v = r at hrecv
  cases hrecv with
  | @blocked rest hrest hstuck =>
    exact .blocked hrest hstuck
  | @failed rest hrest hfail =>
    exact .failed hrest hfail
  | @ended rest hrest hinput hclosed =>
    simp only
    rw [if_neg (by omega), if_pos (by omega)]
    exact .ended hrest hinput hclosed
  | @got rest n hrest hpos hle hinput =>
    have hn : n ≤ v.len := by simpa [avail] using hle
    simp only
    rw [Int.zero_add]
    by_cases hshort : (n : ℤ) ≠ v.len
    · rw [if_pos hshort, ← lay_cons_of_le c vs (by rw [length_take]; omega)]
      exact .got hrest hpos (by rw [avail_cons]; omega) hinput
    · rw [if_neg hshort]
      have hfull : n = v.len := by omega
      obtain ⟨k, rest', hrest', hk, hk', heq⟩ := readvLoop_of_pos (c.lay [v] (s.input.take n))
        { s with input := s.input.drop n } rest (fun w hw => hvs w (mem_cons_of_mem _ hw)) hpos
      simp only [length_drop] at hk'
      subst hfull
      rw [heq, drop_drop, ← lay_cons_take]
      exact .got (fun e he => hrest (hrest' he)) (by omega) (by rw [avail_cons]; omega) (by omega)

inductive Writes (s : Stream) (events : List Event) (b : Bytes) : ℤ × Stream × List Event → Prop
  | blocked {rest : List Event} (hrest : rest ⊆ events) (hstuck : ¬ Moves events) :
    Writes s events b (-2, s, rest)
  | failed {rest : List Event} (hrest : rest ⊆ events) (hfail : .fail ∈ events) :
    Writes s events b (-1, s, rest)
  | nothing {rest : List Event} (hrest : rest ⊆ events) (hstuck : ¬ Moves events) :
    Writes s events b (0, s, rest)
  | put {rest : List Event} {n : ℕ} (hrest : rest ⊆ events) (hpos : 0 < n) (hle : n ≤ b.length) :
    Writes s events b (n, { s with output := s.output ++ b.take n }, rest)

lemma send_writes (s : Stream) (events : List Event) (hb : b ≠ []) :
    Writes s events b (send s events b) := by
  have hstuck : ∀ {e : Event} {rest : List Event}, (∀ n, e ≠ .some n) → ¬ Moves (e :: rest) := by
    rintro e rest he ⟨n, rest', heq⟩
    exact he n (cons_eq_cons.1 heq).1
  cases events with
  | nil => exact .blocked (List.Subset.refl _) fun ⟨n, rest, h⟩ => nomatch h
  | cons e rest =>
    cases e with
    | block => exact .blocked (subset_cons_self _ _) (hstuck fun _ h => nomatch h)
    | fail => exact .failed (subset_cons_self _ _) mem_cons_self
    | zero => exact .nothing (subset_cons_self _ _) (hstuck fun _ h => nomatch h)
    | some n =>
      have hpos : 0 < b.length := length_pos_of_ne_nil hb
      have hk : (b.take (n + 1)).length = min (n + 1) b.length := length_take
      have htake : b.take (b.take (n + 1)).length = b.take (n + 1) := by
        rw [hk, ← take_eq_take_min]
      unfold send
      simp only
      nth_rewrite 2 [← htake]
      exact .put (subset_cons_self _ _) (by omega) (by omega)

lemma Covers.length_fetch (hfits : Fits c) (h : Covers c v p) : (c.fetch v).length = v.len := by
  have hle := pos_len_of_covers hfits h
  rw [h.fetch hfits, length_take, length_drop]
  omega

/-- The copying loop takes what fits into its buffer. -/
theorem Tiles.gather (hfits : Fits c) (h : Tiles c vs p) (room : ℕ) :
    gather c vs room = (vs.flatMap c.fetch).take room := by
  induction vs generalizing p room with
  | nil => rw [flatMap_nil, take_nil]; rfl
  | cons v vs ih =>
    unfold Wire.gather
    split_ifs with hroom
    · rw [hroom, take_zero]
    · have hsub : room - min room v.len = room - v.len := by omega
      rw [ih h.2, flatMap_cons, take_append, h.1.length_fetch hfits, hsub]

lemma AtPos.avail_le (h : AtPos c.message c.state pos) : avail c.message.vectors ≤ maxCopySize := by
  have hmax : maxCopySize = connPktLen + micLen := rfl
  rw [h.vectors]
  unfold planned
  by_cases hpos : pos < headerLen
  · rw [if_pos hpos, avail_cons]
    split_ifs
    · have hle := avail_dataPlan_zero_le c.message.dataRegion c.message.length
        (c.message.hasMic c.state)
      simp only
      omega
    · have hnil : avail [] = 0 := rfl
      have hheader : headerLen ≤ maxCopySize := by decide
      simp only [hnil]
      omega
  · rw [if_neg hpos]
    exact avail_dataPlan_le

/-- `Unameit_Stream_Writev` writes the next bytes of the image. -/
theorem streamWritev_writes (s : Stream) (events : List Event) (hfits : Fits c)
    (h : AtPos c.message c.state pos) (hne : 0 < avail c.message.vectors) :
    Writes s events ((c.image.drop pos).take (avail c.message.vectors))
      (streamWritev c s events) := by
  have htiles := h.tiles
  have hmax := h.avail_le
  have hle := htiles.le hfits (by rw [hfits.length_image]; exact h.le)
  have hall : c.message.vectors.flatMap c.fetch = _ := htiles.fetch hfits
  have hlen : ((c.image.drop pos).take (avail c.message.vectors)).length =
      avail c.message.vectors := by
    rw [length_take, length_drop]
    omega
  have hbytes : (c.image.drop pos).take (avail c.message.vectors) ≠ [] := by
    intro hnil
    rw [hnil, length_nil] at hlen
    omega
  have hsame : streamWritev c s events =
      send s events ((c.image.drop pos).take (avail c.message.vectors)) := by
    unfold streamWritev
    split_ifs with hone
    · -- the first vector is never larger than the copy buffer
      have hvecs : c.message.vectors ≠ [] := by
        intro hnil
        rw [hnil] at hne
        exact lt_irrefl _ hne
      obtain ⟨v, vs, hvec⟩ := exists_cons_of_ne_nil hvecs
      obtain ⟨hiov, hnvec⟩ := iov_zero hvec
      rw [hvec, avail_cons] at hmax
      have hnil : vs = [] := by
        rw [hiov] at hone
        exact eq_nil_of_length_eq_zero (by omega)
      rw [← hall, hvec, hnil, hiov, flatMap_cons, flatMap_nil, append_nil]
    · rw [htiles.gather hfits, hall, take_of_length_le (by omega)]
  rw [hsame]
  exact send_writes s events hbytes

end Wire
end Unameit
