import Unameit.Range.Basic

/-!
# Range.Used — the block sequence of one range object

`Add_Used` and `Del_Used` change at most two neighbouring blocks of a sequence.  The first part of
this module says what each of the elementary changes does to the intervals that the sequence stands
for (`Edited`); the second part follows the two searches and shows that they end in a change that
adds or removes exactly the given value.
-/

namespace Unameit
namespace Range

open List

variable {c : DbObject} {blocks : Option (List DbObject)} {m : ℕ}

open ClosedInterval (Covers Canonical Apart covers_append covers_cons covers_singleton)
open Store

/-! ## Elementary changes -/

structure Stock (s : Store) (rest : DbObject → Prop) (col : List DbObject) : Prop where
  pool : s.pool.Sound fun b => b ∈ col ∨ rest b
  nodup : col.Nodup
  foreign : ∀ b ∈ col, ¬ rest b

structure Edited (s s' : Store) (rest : DbObject → Prop) (col : List DbObject)
    (l : List ClosedInterval) : Prop where
  stock : Stock s' rest col
  intervals : s'.intervals col = l
  frame : ∀ {b}, rest b → s'.bounds b = s.bounds b

variable {s s' : Store} {rest : DbObject → Prop} {pre post col : List DbObject} {b : DbObject}
  {l : List ClosedInterval}

section Edits

variable {s'' : Store} {col' : List DbObject} {x y : ℤ} {l' : List ClosedInterval}

lemma Edited.trans (h : Edited s s' rest col l) (h' : Edited s' s'' rest col' l') :
    Edited s s'' rest col' l' :=
  ⟨h'.stock, h'.intervals, fun hb => (h'.frame hb).trans (h.frame hb)⟩

lemma intervals_append (s : Store) (col col' : List DbObject) :
    s.intervals (col ++ col') = s.intervals col ++ s.intervals col' :=
  map_append

lemma intervals_congr (h : ∀ c ∈ col, s'.bounds c = s.bounds c) :
    s'.intervals col = s.intervals col :=
  map_congr_left h

lemma intervals_of_change (hnodup : (pre ++ b :: post).Nodup)
    (h : ∀ c, c ≠ b → s'.bounds c = s.bounds c) :
    s'.intervals (pre ++ b :: post) = s.intervals pre ++ s'.bounds b :: s.intervals post := by
  have hmid := nodup_middle.1 hnodup
  have hout : ∀ c ∈ pre ++ post, c ≠ b := by
    rintro c hc rfl
    exact (nodup_cons.1 hmid).1 hc
  calc s'.intervals (pre ++ b :: post)
      = s'.intervals pre ++ s'.bounds b :: s'.intervals post := by
        rw [intervals_append]
        rfl
    _ = s.intervals pre ++ s'.bounds b :: s.intervals post := by
        rw [intervals_congr fun c hc => h c (hout c (mem_append_left _ hc)),
          intervals_congr fun c hc => h c (hout c (mem_append_right _ hc))]

lemma Stock.change (h : Stock s rest (pre ++ b :: post)) (hpool : s'.pool = s.pool)
    (hsame : ∀ c, c ≠ b → s'.bounds c = s.bounds c) :
    Edited s s' rest (pre ++ b :: post)
      (s.intervals pre ++ s'.bounds b :: s.intervals post) :=
  { stock := ⟨hpool.symm ▸ h.pool, h.nodup, h.foreign⟩
    intervals := intervals_of_change h.nodup hsame
    frame := fun {c} hc => hsame c fun hcb => h.foreign b (by simp) (hcb ▸ hc) }

lemma bounds_putStart_self : (s.putStart b x).bounds b = (x, s.rangeEnd b) := by
  simp [bounds, putStart]

lemma bounds_putStart_of_ne (hc : c ≠ b) : (s.putStart b x).bounds c = s.bounds c := by
  simp [bounds, putStart, hc]

lemma bounds_putEnd_self : (s.putEnd b x).bounds b = (s.rangeStart b, x) := by
  simp [bounds, putEnd]

lemma bounds_putEnd_of_ne (hc : c ≠ b) : (s.putEnd b x).bounds c = s.bounds c := by
  simp [bounds, putEnd, hc]


lemma Stock.putStart (h : Stock s rest (pre ++ b :: post)) (x : ℤ) :
    Edited s (s.putStart b x) rest (pre ++ b :: post)
      (s.intervals pre ++ (x, s.rangeEnd b) :: s.intervals post) := by
  rw [← bounds_putStart_self]
  exact h.change rfl fun c hc => bounds_putStart_of_ne hc

lemma Stock.putEnd (h : Stock s rest (pre ++ b :: post)) (x : ℤ) :
    Edited s (s.putEnd b x) rest (pre ++ b :: post)
      (s.intervals pre ++ (s.rangeStart b, x) :: s.intervals post) := by
  rw [← bounds_putEnd_self]
  exact h.change rfl fun c hc => bounds_putEnd_of_ne hc

lemma insertIdx_length (pre post : List DbObject) (b : DbObject) :
    (pre ++ post).insertIdx pre.length b = pre ++ b :: post := by
  induction pre with
  | nil => rfl
  | cons c pre ih => simpa using ih

lemma Stock.newBlock (h : Stock s rest (pre ++ post)) (x y : ℤ) :
    ∃ s' b, newBlock s (pre ++ post) pre.length x y = .ok (s', pre ++ b :: post) ∧
      Edited s s' rest (pre ++ b :: post)
        (s.intervals pre ++ (x, y) :: s.intervals post) := by
  have hfresh := h.pool.not_live_take
  have hindex : pre.length ≤ (pre ++ post).length := by simp
  have hnodup : (pre ++ s.pool.take.1 :: post).Nodup :=
    nodup_middle.2 (nodup_cons.2 ⟨fun hb => hfresh (.inl hb), h.nodup⟩)
  have hother : ∀ c, c ≠ s.pool.take.1 →
      ((({ s with pool := s.pool.take.2 }).putStart s.pool.take.1 x).putEnd
        s.pool.take.1 y).bounds c = s.bounds c := fun c hc =>
    (bounds_putEnd_of_ne hc).trans (bounds_putStart_of_ne hc)
  refine ⟨(({ s with pool := s.pool.take.2 }).putStart s.pool.take.1 x).putEnd s.pool.take.1 y,
    s.pool.take.1, ?_, ?_⟩
  · rw [Range.newBlock, if_pos hindex]
    simp only [insertIdx_length]
  · refine
      { stock := ⟨h.pool.take.congr fun c => ?_, hnodup, fun c hc hrest => ?_⟩
        intervals := ?_
        frame := fun {c} hc => hother c fun hcb => hfresh (.inr (hcb ▸ hc)) }
    · simp only [mem_append, mem_cons]
      tauto
    · rcases mem_cons.1 (perm_middle.mem_iff.1 hc) with rfl | hc
      · exact hfresh (.inr hrest)
      · exact h.foreign c hc hrest
    · rw [intervals_of_change hnodup hother, bounds_putEnd_self]
      simp [Store.putStart]

lemma Stock.drop (h : Stock s rest (pre ++ b :: post)) :
    dropElement (pre ++ b :: post) pre.length = .ok (pre ++ post) ∧
      Edited s (s.appendFreeList b) rest (pre ++ post)
        (s.intervals pre ++ s.intervals post) := by
  have hmid := nodup_cons.1 (nodup_middle.1 h.nodup)
  have hdrop : dropElement (pre ++ b :: post) pre.length = .ok (pre ++ post) := by
    rw [dropElement, eraseIdx_append_of_length_le (le_refl _)]
    simp
  refine ⟨hdrop,
    { stock := ⟨?_, hmid.2, fun c hc => h.foreign c (by simp at hc ⊢; tauto)⟩
      intervals := intervals_append _ _ _
      frame := fun _ => rfl }⟩
  refine (h.pool.give (.inl (by simp))).congr fun c => ?_
  have hb : ¬ rest b := h.foreign b (by simp)
  have hout : ∀ c, c ∈ pre ++ post → c ≠ b := fun c hc hcb => hmid.1 (hcb ▸ hc)
  constructor
  · rintro (hc | hc)
    · exact ⟨.inl (by simp at hc ⊢; tauto), hout c hc⟩
    · exact ⟨.inr hc, fun hcb => hb (hcb ▸ hc)⟩
  · rintro ⟨hc | hc, hne⟩
    · exact .inl (by simp [hne] at hc ⊢; tauto)
    · exact .inr hc

end Edits

/-! ## Places in a sequence -/

variable {n : ℕ}

section Places

lemma exists_append_of_getElem? (h : col[n]? = some b) :
    ∃ pre post, col = pre ++ b :: post ∧ pre.length = n := by
  rcases List.getElem?_eq_some_iff.1 h with ⟨hn, rfl⟩
  refine ⟨col.take n, col.drop (n + 1), ?_, List.length_take_of_le (le_of_lt hn)⟩
  rw [List.getElem_cons_drop, List.take_append_drop]

lemma exists_append_of_neighbours (hb : col[n]? = some b) (hc : col[n + 1]? = some c) :
    ∃ pre post, col = pre ++ b :: c :: post ∧ pre.length = n := by
  rcases exists_append_of_getElem? hb with ⟨pre, post, rfl, rfl⟩
  cases post with
  | nil => simp at hc
  | cons d post =>
    obtain rfl : d = c := by simpa using hc
    exact ⟨pre, post, rfl, rfl⟩

lemma getBounds_eq (h : col[n]? = some b) :
    getBounds s col n = .ok (b, s.rangeStart b, s.rangeEnd b) := by
  rw [getBounds, h]

lemma intervals_getElem? (h : col[n]? = some b) : (s.intervals col)[n]? = some (s.bounds b) := by
  rw [intervals, getElem?_map, h]
  rfl

end Places

/-! ## Sequences that stand for a set -/

/-- `col` is the sequence of a range object: it is canonical, and its bounds have neighbours among
the 32 bit integers. -/
structure Ready (s : Store) (rest : DbObject → Prop) (col : List DbObject) : Prop where
  stock : Stock s rest col
  canonical : Canonical (s.intervals col)
  fits : ∀ b ∈ col, int32Min < s.rangeStart b ∧ s.rangeEnd b < int32Max

structure Result (s s' : Store) (rest : DbObject → Prop) (col : List DbObject) (P : ℤ → Prop) :
    Prop where
  stock : Stock s' rest col
  frame : ∀ {b}, rest b → s'.bounds b = s.bounds b
  canonical : Canonical (s'.intervals col)
  covers : ∀ i, Covers (s'.intervals col) i ↔ P i

variable {ival : ℤ} {P : ℤ → Prop}

section Ready

lemma Edited.result (h : Edited s s' rest col l) (hcan : Canonical l)
    (hcov : ∀ i, Covers l i ↔ P i) : Result s s' rest col P :=
  { stock := h.stock
    frame := h.frame
    canonical := h.intervals.symm ▸ hcan
    covers := fun i => by rw [h.intervals, hcov] }

namespace Ready

lemma proper (h : Ready s rest col) (hb : b ∈ col) : s.rangeStart b ≤ s.rangeEnd b :=
  h.canonical.proper _ (mem_map_of_mem hb)

/-- The bounds of a block and the values next to them are 32 bit integers. -/
theorem int32_bounds (h : Ready s rest col) (hb : b ∈ col) :
    int32 (s.rangeStart b - 1) = s.rangeStart b - 1 ∧
      int32 (s.rangeStart b + 1) = s.rangeStart b + 1 ∧
      int32 (s.rangeEnd b - 1) = s.rangeEnd b - 1 ∧
      int32 (s.rangeEnd b + 1) = s.rangeEnd b + 1 := by
  rcases h.fits b hb with ⟨hlow, hhigh⟩
  have hle := h.proper hb
  refine ⟨int32_eq ?_ ?_, int32_eq ?_ ?_, int32_eq ?_ ?_, int32_eq ?_ ?_⟩ <;> omega

/-- Blocks at different places have a gap between them. -/
theorem gap (h : Ready s rest col) (hb : col[m]? = some b) (hc : col[n]? = some c) (hlt : m < n) :
    s.rangeEnd b + 1 < s.rangeStart c :=
  h.canonical.apart_of_lt (intervals_getElem? hb) (intervals_getElem? hc) hlt

end Ready

/-- The intervals `l` can take the place of the blocks `mid`: they stay within the bounds of those
blocks wherever there are other blocks on that side. -/
@[mk_iff]
structure Fits (s : Store) (pre mid post : List DbObject) (l : List ClosedInterval) : Prop where
  canonical : Canonical l
  low : pre = [] ∨ ∀ a ∈ l, ∃ b ∈ mid, s.rangeStart b ≤ a.1
  high : post = [] ∨ ∀ a ∈ l, ∃ b ∈ mid, a.2 ≤ s.rangeEnd b

lemma Fits.result {mid : List DbObject} (hfits : Fits s pre mid post l)
    (h : Canonical (s.intervals (pre ++ mid ++ post)))
    (hedit : Edited s s' rest col (s.intervals pre ++ l ++ s.intervals post))
    (hcov : ∀ i, (Covers (s.intervals pre) i ∨ Covers l i) ∨ Covers (s.intervals post) i ↔ P i) :
    Result s s' rest col P := by
  rw [intervals_append, intervals_append] at h
  refine hedit.result (h.splice_within hfits.canonical ?_ ?_) fun i => ?_
  · refine hfits.low.imp (congrArg s.intervals) fun hlow a ha => ?_
    rcases hlow a ha with ⟨b, hb, hle⟩
    exact ⟨s.bounds b, mem_map_of_mem hb, hle⟩
  · refine hfits.high.imp (congrArg s.intervals) fun hhigh a ha => ?_
    rcases hhigh a ha with ⟨b, hb, hle⟩
    exact ⟨s.bounds b, mem_map_of_mem hb, hle⟩
  · rw [covers_append, covers_append, hcov]

end Ready

/-! ## Adding a value -/

section Add

variable {d : DbObject}

def With (s : Store) (col : List DbObject) (ival i : ℤ) : Prop :=
  Covers (s.intervals col) i ∨ i = ival

/-- The blocks `mid` are replaced by intervals that contain the value too. -/
theorem Ready.add {col' : List DbObject} (h : Ready s rest col) (mid : List DbObject)
    (hcol : col = pre ++ mid ++ post) (hfits : Fits s pre mid post l)
    (hedit : Edited s s' rest col' (s.intervals pre ++ l ++ s.intervals post))
    (hcov : ∀ i, Covers l i ↔ Covers (s.intervals mid) i ∨ i = ival) :
    Result s s' rest col' (With s col ival) := by
  subst hcol
  refine hfits.result h.canonical hedit fun i => ?_
  simp only [With, intervals_append, covers_append, hcov]
  tauto

section Neighbours

variable (h : Ready s rest (pre ++ b :: c :: post))

include h

lemma Ready.proper_neighbours : s.rangeStart b ≤ s.rangeEnd b ∧ s.rangeStart c ≤ s.rangeEnd c :=
  ⟨h.proper (by simp), h.proper (by simp)⟩

/-- The place of the second of two neighbours. -/
theorem Ready.stock_second : Stock s rest ((pre ++ [b]) ++ c :: post) := by
  simpa using h.stock

/-- The value is next to the second of two neighbours. -/
theorem Ready.extend_second (hleft : s.rangeEnd b + 1 < ival) (hright : ival = s.rangeStart c - 1) :
    Result s (s.putStart c ival) rest (pre ++ b :: c :: post)
      (With s (pre ++ b :: c :: post) ival) := by
  have hproper := h.proper_neighbours
  have hfits : Fits s pre [b, c] post [s.bounds b, (ival, s.rangeEnd c)] := by
    simp [fits_iff, bounds]
    omega
  refine h.add [b, c] (by simp) hfits ?_ fun i => ?_
  · simpa [intervals] using h.stock_second.putStart ival
  · simp [covers_cons, intervals, bounds]
    omega

/-- The value is next to the first of two neighbours. -/
theorem Ready.extend_first (hleft : ival = s.rangeEnd b + 1) (hright : ival < s.rangeStart c - 1) :
    Result s (s.putEnd b ival) rest (pre ++ b :: c :: post)
      (With s (pre ++ b :: c :: post) ival) := by
  have hproper := h.proper_neighbours
  have hfits : Fits s pre [b, c] post [(s.rangeStart b, ival), s.bounds c] := by
    simp [fits_iff, bounds]
    omega
  refine h.add [b, c] (by simp) hfits ?_ fun i => ?_
  · simpa [intervals] using h.stock.putEnd ival
  · simp [covers_cons, intervals, bounds]
    omega

section

variable (hleft : ival = s.rangeEnd b + 1) (hright : ival = s.rangeStart c - 1)

include hleft hright

/-- The value fills the gap between two neighbours, of which one is left. -/
theorem Ready.merge (hedit : Edited s s' rest col
      (s.intervals pre ++ (s.rangeStart b, s.rangeEnd c) :: s.intervals post)) :
    Result s s' rest col (With s (pre ++ b :: c :: post) ival) := by
  have hproper := h.proper_neighbours
  have hfits : Fits s pre [b, c] post [(s.rangeStart b, s.rangeEnd c)] := by
    simp [fits_iff]
    omega
  refine h.add [b, c] (by simp) hfits (by simpa using hedit) fun i => ?_
  simp [covers_cons, intervals, bounds]
  omega

lemma Ready.merge_second :
    Result s ((s.appendFreeList b).putStart c (s.rangeStart b)) rest (pre ++ c :: post)
      (With s (pre ++ b :: c :: post) ival) := by
  have hdrop := h.stock.drop.2
  exact h.merge hleft hright (hdrop.trans (hdrop.stock.putStart (s.rangeStart b)))

lemma Ready.merge_first :
    Result s ((s.appendFreeList c).putEnd b (s.rangeEnd c)) rest (pre ++ b :: post)
      (With s (pre ++ b :: c :: post) ival) := by
  have hdrop := h.stock_second.drop.2
  have hstock : Stock (s.appendFreeList c) rest (pre ++ b :: post) := by
    simpa using hdrop.stock
  exact h.merge hleft hright (hdrop.trans (hstock.putEnd (s.rangeEnd c)))

end

/-- The value is next to neither of two neighbours. -/
theorem Ready.between {x : ℤ} (hleft : s.rangeEnd b + 1 < x) (hright : x < s.rangeStart c - 1) :
    ∃ s' col', newBlock s (pre ++ b :: c :: post) (pre.length + 1) x x = .ok (s', col') ∧
      Result s s' rest col' (With s (pre ++ b :: c :: post) x) := by
  have hproper := h.proper_neighbours
  rcases h.stock_second.newBlock x x with ⟨s', d, hnew, hedit⟩
  refine ⟨s', _, by simpa using hnew, ?_⟩
  have hfits : Fits s pre [b, c] post [s.bounds b, (x, x), s.bounds c] := by
    simp [fits_iff, bounds]
    omega
  refine h.add [b, c] (by simp) hfits ?_ fun i => ?_
  · simpa [intervals] using hedit
  · simp [covers_cons, intervals, bounds]
    omega

end Neighbours

/-- What is known in the loop of `Add_Used`.  The remembered `start` and `end` may be those of other
blocks once the interval was narrowed, but then the value does not fill the gap between the first
and the last block. -/
structure Searching (s : Store) (col : List DbObject) (ival : ℤ) (v : Search) : Prop where
  lt : v.first < v.last
  first : col[v.first]? = some v.firstBlock
  last : col[v.last]? = some v.lastBlock
  left : v.left = s.rangeEnd v.firstBlock
  right : v.right = s.rangeStart v.lastBlock
  above : v.left < ival
  below : ival < v.right
  fresh : (v.start = s.rangeStart v.firstBlock ∧ v.stop = s.rangeEnd v.lastBlock) ∨
    ival ≠ v.left + 1 ∨ ival ≠ v.right - 1

/-- The bounds of a block are remembered as they are, or fetched. -/
theorem refresh_spec {P : DbObject × ℤ × ℤ → Prop} {o : Bool} {t : DbObject × ℤ × ℤ}
    (hd : col[n]? = some d) (hfetched : P (d, s.rangeStart d, s.rangeEnd d))
    (hkept : o = false → P t) : ∃ t', refresh s col o n t = .ok t' ∧ P t' := by
  cases o with
  | true => exact ⟨_, by simp [refresh, getBounds_eq hd], hfetched⟩
  | false => exact ⟨t, by simp [refresh], hkept rfl⟩

namespace Searching

variable {v : Search}

lemma exists_block (h : Searching s col ival v) (hn : n ≤ v.last) : ∃ d, col[n]? = some d := by
  have hlast := (List.getElem?_eq_some_iff.1 h.last).1
  exact ⟨_, List.getElem?_eq_getElem (lt_of_le_of_lt hn hlast)⟩

section

variable (h : Searching s col ival v) (hready : Ready s rest col)

include h hready

/-- The assertion holds, and the bounds do not overflow. -/
theorem bounds :
    ¬ (¬ ival < v.right ∨ ¬ ival > v.left) ∧ int32 (v.right - 1) = v.right - 1 ∧
      int32 (v.left + 1) = v.left + 1 := by
  have habove := h.above
  have hbelow := h.below
  refine ⟨by omega, ?_, ?_⟩
  · rw [h.right, (hready.int32_bounds (mem_of_getElem? h.last)).1]
  · rw [h.left, (hready.int32_bounds (mem_of_getElem? h.first)).2.2.2]

/-- The value is next to the last block of the interval. -/
theorem addLoop_right (hnext : ival = v.right - 1) (fuel : ℕ) :
    ∃ s' col', addLoop s col ival (fuel + 1) v = .ok (s', col') ∧
      Result s s' rest col' (With s col ival) := by
  obtain ⟨hassert, hright, -⟩ := h.bounds hready
  rcases h.exists_block (n := v.last - 1) (Nat.sub_le ..) with ⟨d, hd⟩
  have hlast : col[v.last - 1 + 1]? = some v.lastBlock := by
    rw [Nat.sub_add_cancel (Nat.one_le_of_lt h.lt)]
    exact h.last
  have hapart := hready.gap hd hlast (Nat.lt_succ_self _)
  have hint := (hready.int32_bounds (mem_of_getElem? hd)).2.2.2
  rw [h.right] at hnext
  -- The block before the last one, and its bounds, whether refreshed or not.
  obtain ⟨⟨_, start, _⟩, hfetch, rfl, rfl, hstart⟩ := refresh_spec
    (P := fun t => d = t.1 ∧ s.rangeEnd d = t.2.2 ∧
      (ival = s.rangeEnd d + 1 → t.2.1 = s.rangeStart d))
    (o := v.first ≠ v.last - 1) (t := (v.firstBlock, v.start, v.left)) hd
    ⟨rfl, rfl, fun _ => rfl⟩ fun hnear => by
      obtain rfl : d = v.firstBlock := by
        rw [← not_not.1 (of_decide_eq_false hnear), h.first] at hd
        exact (Option.some.inj hd).symm
      refine ⟨rfl, h.left.symm, fun hfill => ?_⟩
      rcases h.fresh with hfresh | hgap | hgap
      · exact hfresh.1
      · exact absurd (h.left ▸ hfill) hgap
      · exact absurd (h.right ▸ hnext) hgap
  rw [addLoop, if_neg hassert, hright, h.right, if_pos hnext, hfetch]
  rcases exists_append_of_neighbours hd hlast with ⟨pre, post, rfl, hlen⟩
  by_cases hgap : ival > int32 (s.rangeEnd d + 1)
  · refine ⟨_, _, ?_, hready.extend_second (by omega) hnext⟩
    simp only [bind, Except.bind, if_pos hgap]
    rfl
  · have hfill : ival = s.rangeEnd d + 1 := by omega
    refine ⟨_, _, ?_, hready.merge_second hfill hnext⟩
    simp only [bind, Except.bind, if_neg hgap]
    rw [← hlen, hready.stock.drop.1, ← hstart hfill]
    rfl

/-- The value is next to the first block of the interval, and not to the last one. -/
theorem addLoop_left (hfar : ival ≠ v.right - 1) (hnext : ival = v.left + 1) (fuel : ℕ) :
    ∃ s' col', addLoop s col ival (fuel + 1) v = .ok (s', col') ∧
      Result s s' rest col' (With s col ival) := by
  obtain ⟨hassert, hright, hleft⟩ := h.bounds hready
  rcases h.exists_block (n := v.first + 1) h.lt with ⟨d, hd⟩
  have hapart := hready.gap h.first hd (Nat.lt_succ_self _)
  have hint := (hready.int32_bounds (mem_of_getElem? hd)).1
  -- The block after the first one; its end is only used when it was fetched.
  obtain ⟨⟨_, _, stop⟩, hfetch, rfl, rfl, hstop⟩ := refresh_spec
    (P := fun t => d = t.1 ∧ s.rangeStart d = t.2.1 ∧
      (ival = s.rangeStart d - 1 → t.2.2 = s.rangeEnd d))
    (o := v.last ≠ v.first + 1) (t := (v.lastBlock, v.right, v.stop)) hd
    ⟨rfl, rfl, fun _ => rfl⟩ fun hnear => by
      obtain rfl : d = v.lastBlock := by
        rw [← not_not.1 (of_decide_eq_false hnear), h.last] at hd
        exact (Option.some.inj hd).symm
      exact ⟨rfl, h.right.symm, fun hfill => absurd (h.right ▸ hfill) hfar⟩
  rw [addLoop, if_neg hassert, hright, if_neg hfar, hleft, if_pos hnext, hfetch]
  rw [h.left] at hnext
  rcases exists_append_of_neighbours h.first hd with ⟨pre, post, rfl, hlen⟩
  by_cases hgap : ival < int32 (s.rangeStart d - 1)
  · refine ⟨_, _, ?_, hready.extend_first hnext (by omega)⟩
    simp only [bind, Except.bind, if_pos hgap]
    rfl
  · have hfill : ival = s.rangeStart d - 1 := by omega
    have hdrop : dropElement (pre ++ v.firstBlock :: d :: post) (v.first + 1) =
        .ok (pre ++ v.firstBlock :: post) := by
      simpa [hlen] using hready.stock_second.drop.1
    refine ⟨_, _, ?_, hready.merge_first hnext hfill⟩
    simp only [bind, Except.bind, if_neg hgap]
    rw [hdrop, ← hstop hfill]
    rfl

end

/-- The search ends with a change that adds the value. -/
theorem addLoop_spec (hready : Ready s rest col) (hnew : ¬ Covers (s.intervals col) ival)
    (fuel : ℕ) (v : Search) (h : Searching s col ival v) (hfuel : v.last - v.first ≤ fuel) :
    ∃ s' col', addLoop s col ival fuel v = .ok (s', col') ∧
      Result s s' rest col' (With s col ival) := by
  induction fuel generalizing v with
  | zero =>
    have hlt := h.lt
    omega
  | succ fuel ih =>
    by_cases hright : ival = v.right - 1
    · exact h.addLoop_right hready hright fuel
    by_cases hleft : ival = v.left + 1
    · exact h.addLoop_left hready hright hleft fuel
    -- The value is next to neither of the two blocks.
    obtain ⟨hassert, hintRight, hintLeft⟩ := h.bounds hready
    have hlt := h.lt
    have habove := h.above
    have hbelow := h.below
    rw [addLoop, if_neg hassert, hintRight, if_neg hright, hintLeft, if_neg hleft]
    by_cases hmid : (v.first + v.last) / 2 = v.first
    · have hnear : v.last = v.first + 1 := by omega
      have hnext : col[v.first + 1]? = some v.lastBlock := hnear ▸ h.last
      rcases exists_append_of_neighbours h.first hnext with ⟨pre, post, rfl, hlen⟩
      have hbetween := hready.between (x := ival) (by rw [← h.left]; omega)
        (by rw [← h.right]; omega)
      rw [hlen, ← hnear] at hbetween
      simpa only [if_pos hmid] using hbetween
    · rcases h.exists_block (n := (v.first + v.last) / 2) (by omega) with ⟨d, hd⟩
      simp only [if_neg hmid, getBounds_eq hd, bind, Except.bind]
      by_cases hlow : ival < s.rangeStart d
      · rw [if_pos hlow]
        refine ih _ ⟨?_, h.first, hd, h.left, rfl, habove, hlow, .inr (.inl hleft)⟩ ?_
        · show v.first < (v.first + v.last) / 2
          omega
        · show (v.first + v.last) / 2 - v.first ≤ fuel
          omega
      · have hhigh : ival > s.rangeEnd d := by
          by_contra hin
          exact hnew ⟨s.bounds d, mem_map_of_mem (mem_of_getElem? hd), not_lt.1 hlow,
            not_lt.1 hin⟩
        rw [if_neg hlow, if_pos hhigh]
        refine ih _ ⟨?_, hd, h.last, rfl, h.right, hhigh, hbelow, .inr (.inr hright)⟩ ?_
        · show (v.first + v.last) / 2 < v.last
          omega
        · show v.last - (v.first + v.last) / 2 ≤ fuel
          omega

end Searching

/-- The value is above the last block of a sequence. -/
theorem Ready.above_last (h : Ready s rest (pre ++ [b])) (hhigh : s.rangeEnd b < ival) :
    ∃ s' col, (if ival = int32 (s.rangeEnd b + 1) then .ok (s.putEnd b ival, pre ++ [b])
        else newBlock s (pre ++ [b]) (pre ++ [b]).length ival ival) = .ok (s', col) ∧
      Result s s' rest col (With s (pre ++ [b]) ival) := by
  have hb := h.proper (b := b) (by simp)
  rw [(h.int32_bounds (b := b) (by simp)).2.2.2]
  by_cases hnext : ival = s.rangeEnd b + 1
  · refine ⟨_, _, if_pos hnext, ?_⟩
    have hfits : Fits s pre [b] [] [(s.rangeStart b, ival)] := by
      simp [fits_iff]
      omega
    refine h.add [b] (by simp) hfits (by simpa using h.stock.putEnd ival) fun i => ?_
    simp [bounds, intervals]
    omega
  · have hstock : Stock s rest ((pre ++ [b]) ++ []) := by simpa using h.stock
    rcases hstock.newBlock ival ival with ⟨s', c, hnew, hedit⟩
    refine ⟨s', pre ++ [b, c], by simpa [hnext] using hnew, ?_⟩
    have hfits : Fits s pre [b] [] [s.bounds b, (ival, ival)] := by
      simp [fits_iff, bounds]
      omega
    refine h.add [b] (by simp) hfits (by simpa [intervals] using hedit) fun i => ?_
    simp [covers_cons, bounds, intervals]
    omega

/-- The value is below the first block of a sequence. -/
theorem Ready.below_first (h : Ready s rest (b :: post)) (hlow : ival < s.rangeStart b) :
    ∃ s' col, (if ival = int32 (s.rangeStart b - 1) then .ok (s.putStart b ival, b :: post)
        else newBlock s (b :: post) 0 ival ival) = .ok (s', col) ∧
      Result s s' rest col (With s (b :: post) ival) := by
  have hb := h.proper (b := b) (by simp)
  have hstock : Stock s rest ([] ++ b :: post) := h.stock
  rw [(h.int32_bounds (b := b) (by simp)).1]
  by_cases hnext : ival = s.rangeStart b - 1
  · refine ⟨_, _, if_pos hnext, ?_⟩
    have hfits : Fits s [] [b] post [(ival, s.rangeEnd b)] := by
      simp [fits_iff]
      omega
    refine h.add [b] rfl hfits (hstock.putStart ival) fun i => ?_
    simp [bounds, intervals]
    omega
  · rcases hstock.newBlock ival ival with ⟨s', c, hnew, hedit⟩
    refine ⟨s', c :: b :: post, (if_neg hnext).trans hnew, ?_⟩
    have hfits : Fits s [] [b] post [(ival, ival), s.bounds b] := by
      simp [fits_iff, bounds]
      omega
    refine h.add [b] rfl hfits hedit fun i => ?_
    simp [covers_cons, bounds, intervals]
    omega

lemma exists_first_last (hne : col ≠ []) :
    ∃ b c pre post, col = b :: post ∧ col = pre ++ [c] ∧ col[0]? = some b ∧
      col[col.length - 1]? = some c := by
  cases col with
  | nil => exact absurd rfl hne
  | cons b post =>
    rcases eq_nil_or_concat (b :: post) with hnil | ⟨pre, c, hcat⟩
    · cases hnil
    · rw [concat_eq_append] at hcat
      refine ⟨b, c, pre, post, rfl, hcat, rfl, ?_⟩
      rw [hcat]
      simp

lemma Ready.addUsed_some (h : Ready s rest col) (hne : col ≠ [])
    (hnew : ¬ Covers (s.intervals col) ival) :
    ∃ s' col', addUsed s (some col) ival = .ok (s', col') ∧
      Result s s' rest col' (With s col ival) := by
  rcases exists_first_last hne with ⟨b, c, pre, post, hb, hc, hfirst, hlast⟩
  have hcmem : c ∈ col := mem_of_getElem? hlast
  have hbmem : b ∈ col := mem_of_getElem? hfirst
  have hintLast := (h.int32_bounds hcmem).2.2.2
  have hintFirst := (h.int32_bounds hbmem).1
  have hpos : 0 < col.length := length_pos_iff.2 hne
  rw [addUsed]
  simp only [if_neg hne, getBounds_eq hlast, getBounds_eq hfirst, bind, Except.bind]
  by_cases hhigh : s.rangeEnd c < ival
  · have hres := (hc ▸ h : Ready s rest (pre ++ [c])).above_last hhigh
    rw [← hc] at hres
    rw [if_pos hhigh, Nat.sub_add_cancel hpos]
    exact hres
  · have hnot : ¬ ival = int32 (s.rangeEnd c + 1) := by omega
    rw [if_neg hnot, if_neg hhigh]
    by_cases hlow : ival < s.rangeStart b
    · have hres := (hb ▸ h : Ready s rest (b :: post)).below_first hlow
      rw [← hb] at hres
      rw [if_pos hlow]
      exact hres
    · have hnot' : ¬ ival = int32 (s.rangeStart b - 1) := by omega
      rw [if_neg hnot', if_neg hlow]
      -- The value lies in a gap between the first and the last block.
      have hout : ∀ d ∈ col, ¬ (s.rangeStart d ≤ ival ∧ ival ≤ s.rangeEnd d) := fun d hd hin =>
        hnew ⟨s.bounds d, mem_map_of_mem hd, hin⟩
      have hleft := hout b hbmem
      have hright := hout c hcmem
      have hlt : 0 < col.length - 1 := by
        by_contra hone
        have hsame : col.length - 1 = 0 := by omega
        rw [hsame, hfirst] at hlast
        obtain rfl : b = c := Option.some.inj hlast
        omega
      refine Searching.addLoop_spec h hnew col.length _ ?_ ?_
      · exact
          { lt := hlt
            first := hfirst
            last := hlast
            left := rfl
            right := rfl
            above := by show s.rangeEnd b < ival; omega
            below := by show ival < s.rangeStart c; omega
            fresh := .inl ⟨rfl, rfl⟩ }
      · show col.length - 1 - 0 ≤ col.length
        omega

/-- `Add_Used` adds the value, whether or not there is a range object. -/
theorem addUsed_spec (h : Ready s rest (blocks.getD [])) (hsome : blocks ≠ some [])
    (hnew : ¬ Covers (s.intervals (blocks.getD [])) ival) :
    ∃ s' col, addUsed s blocks ival = .ok (s', col) ∧
      Result s s' rest col (With s (blocks.getD []) ival) := by
  cases blocks with
  | none =>
    have hstock : Stock s rest ([] ++ []) := h.stock
    rcases hstock.newBlock ival ival with ⟨s', b, hnew, hedit⟩
    refine ⟨s', _, hnew, hedit.result ?_ fun i => ?_⟩
    · simp [intervals]
    · simp [With, intervals]
      omega
  | some col => exact h.addUsed_some (fun hnil => hsome (hnil ▸ rfl)) hnew

end Add

/-! ## Removing a value -/

section Delete

def Without (s : Store) (col : List DbObject) (ival i : ℤ) : Prop :=
  Covers (s.intervals col) i ∧ i ≠ ival

section Block

variable (h : Ready s rest (pre ++ b :: post))

include h

/-- The block with the value is replaced by intervals within it that leave out the value. -/
theorem Ready.remove (hin : s.rangeStart b ≤ ival ∧ ival ≤ s.rangeEnd b)
    (hfits : Fits s pre [b] post l)
    (hedit : Edited s s' rest col (s.intervals pre ++ l ++ s.intervals post))
    (hcov : ∀ i, Covers l i ↔ Covers [s.bounds b] i ∧ i ≠ ival) :
    Result s s' rest col (Without s (pre ++ b :: post) ival) := by
  have hold : s.intervals (pre ++ b :: post) =
      s.intervals pre ++ ([s.bounds b] ++ s.intervals post) :=
    intervals_append ..
  have hcan := h.canonical
  rw [hold, Canonical.append_iff, Canonical.append_iff] at hcan
  obtain ⟨-, ⟨-, -, hafter⟩, hbefore⟩ := hcan
  -- No other block contains the value.
  have hpre : ¬ Covers (s.intervals pre) ival := by
    rintro ⟨a, ha, _, hle⟩
    have hlt : a.2 + 1 < s.rangeStart b := hbefore a ha _ mem_cons_self
    omega
  have hpost : ¬ Covers (s.intervals post) ival := by
    rintro ⟨a, ha, hle, _⟩
    have hlt : s.rangeEnd b + 1 < a.1 := hafter _ mem_cons_self a ha
    omega
  refine hfits.result (by simpa using h.canonical) hedit fun i => ?_
  simp only [Without, hold, covers_append, hcov]
  by_cases hi : i = ival
  · simp [hi, hpre, hpost]
  · simp [hi, or_assoc]

lemma Ready.drop_block (hstart : ival = s.rangeStart b) (hstop : ival = s.rangeEnd b) :
    Result s (s.appendFreeList b) rest (pre ++ post) (Without s (pre ++ b :: post) ival) := by
  refine h.remove ⟨hstart.ge, hstop.le⟩ (l := []) (by simp [fits_iff])
    (by simpa using h.stock.drop.2) fun i => ?_
  simp [bounds]
  omega

lemma Ready.shrink_start (hstart : ival = s.rangeStart b) (hstop : ival < s.rangeEnd b) :
    Result s (s.putStart b (s.rangeStart b + 1)) rest (pre ++ b :: post)
      (Without s (pre ++ b :: post) ival) := by
  have hfits : Fits s pre [b] post [(s.rangeStart b + 1, s.rangeEnd b)] := by
    simp [fits_iff]
    omega
  refine h.remove ⟨hstart.ge, hstop.le⟩ hfits (by simpa using h.stock.putStart _) fun i => ?_
  simp [bounds]
  omega

lemma Ready.shrink_end (hstart : s.rangeStart b < ival) (hstop : ival = s.rangeEnd b) :
    Result s (s.putEnd b (ival - 1)) rest (pre ++ b :: post)
      (Without s (pre ++ b :: post) ival) := by
  have hfits : Fits s pre [b] post [(s.rangeStart b, ival - 1)] := by
    simp [fits_iff]
    omega
  refine h.remove ⟨hstart.le, hstop.le⟩ hfits (by simpa using h.stock.putEnd _) fun i => ?_
  simp [bounds]
  omega

/-- The value lies inside its block, which is split. -/
theorem Ready.split_block (hstart : s.rangeStart b < ival) (hstop : ival < s.rangeEnd b) :
    ∃ s' col, newBlock (s.putEnd b (ival - 1)) (pre ++ b :: post) (pre.length + 1) (ival + 1)
        (s.rangeEnd b) = .ok (s', col) ∧ col ≠ [] ∧
      Result s s' rest col (Without s (pre ++ b :: post) ival) := by
  have hput := h.stock.putEnd (ival - 1)
  have hstock : Stock (s.putEnd b (ival - 1)) rest ((pre ++ [b]) ++ post) := by
    simpa using hput.stock
  rcases hstock.newBlock (ival + 1) (s.rangeEnd b) with ⟨s', c, hnew, hedit⟩
  -- What the two parts of the sequence stand for before the new block is made.
  obtain ⟨hmid, hpost⟩ : (s.putEnd b (ival - 1)).intervals (pre ++ [b]) =
      s.intervals pre ++ [(s.rangeStart b, ival - 1)] ∧
        (s.putEnd b (ival - 1)).intervals post = s.intervals post := by
    refine append_inj ?_ (by simp [intervals])
    simpa [← intervals_append] using hput.intervals
  rw [hmid, hpost] at hedit
  have hfits : Fits s pre [b] post [(s.rangeStart b, ival - 1), (ival + 1, s.rangeEnd b)] := by
    simp [fits_iff]
    omega
  refine ⟨s', pre ++ b :: c :: post, by simpa using hnew, by simp, ?_⟩
  refine h.remove ⟨hstart.le, hstop.le⟩ hfits (by simpa using hput.trans hedit) fun i => ?_
  simp [covers_cons, bounds]
  omega

end Block

section

variable (h : Ready s rest col) (hb : col[n]? = some b)
  (hin : s.rangeStart b ≤ ival ∧ ival ≤ s.rangeEnd b)

include h hb hin

/-- `Del_From_Range` removes the value from its block. -/
theorem Ready.delFromRange_spec :
    ∃ s' blocks, delFromRange s col n b (s.rangeStart b) (s.rangeEnd b) ival =
        .ok (s', blocks) ∧ blocks ≠ some [] ∧
      Result s s' rest (blocks.getD []) (Without s col ival) := by
  rcases exists_append_of_getElem? hb with ⟨pre, post, rfl, rfl⟩
  have hassert : ¬ (¬ ival ≥ s.rangeStart b ∨ ¬ ival ≤ s.rangeEnd b) := by omega
  rcases h.fits b (by simp) with ⟨hmin, hmax⟩
  have hintStart := (h.int32_bounds (b := b) (by simp)).2.1
  have hintLow : int32 (ival - 1) = ival - 1 := int32_eq (by omega) (by omega)
  have hintHigh : int32 (ival + 1) = ival + 1 := int32_eq (by omega) (by omega)
  rw [delFromRange, if_neg hassert]
  by_cases hstart : ival = s.rangeStart b
  · rw [if_pos hstart]
    by_cases hstop : ival = s.rangeEnd b
    · have hdrop := h.stock.drop.1
      have hres := h.drop_block hstart hstop
      rw [if_pos hstop]
      by_cases hempty : pre ++ post = []
      · refine ⟨_, none, ?_, by simp, hempty ▸ hres⟩
        simp [hdrop, bind, Except.bind, hempty, pure, Except.pure]
      · refine ⟨_, some (pre ++ post), ?_, by simpa using hempty, hres⟩
        rw [append_eq_nil_iff] at hempty
        simp [hdrop, bind, Except.bind, hempty, pure, Except.pure]
    · rw [if_neg hstop, hintStart]
      exact ⟨_, some (pre ++ b :: post), rfl, by simp, h.shrink_start hstart (by omega)⟩
  · rw [if_neg hstart, hintLow]
    by_cases hstop : ival < s.rangeEnd b
    · rcases h.split_block (by omega) hstop with ⟨s', col', hnew, hne, hres⟩
      refine ⟨s', some col', ?_, by simpa using hne, hres⟩
      simp [if_pos hstop, hintHigh, hnew, bind, Except.bind, pure, Except.pure]
    · simp only [if_neg hstop]
      exact ⟨_, some (pre ++ b :: post), rfl, by simp, h.shrink_end (by omega) (by omega)⟩

/-- A block that starts above the value comes after the block with the value. -/
theorem Ready.lt_of_below (hc : col[m]? = some c) (hlow : ival < s.rangeStart c) : n < m := by
  by_contra hge
  rcases Nat.lt_or_eq_of_le (not_lt.1 hge) with hlt | rfl
  · have hgap := h.gap hc hb hlt
    have := h.proper (mem_of_getElem? hc)
    omega
  · obtain rfl : c = b := Option.some.inj (hc.symm.trans hb)
    omega

/-- A block that ends below the value comes before the block with the value. -/
theorem Ready.lt_of_above (hc : col[m]? = some c) (hhigh : s.rangeEnd c < ival) : m < n := by
  by_contra hge
  rcases Nat.lt_or_eq_of_le (not_lt.1 hge) with hlt | rfl
  · have hgap := h.gap hb hc hlt
    have := h.proper (mem_of_getElem? hc)
    omega
  · obtain rfl : c = b := Option.some.inj (hc.symm.trans hb)
    omega

/-- The half interval search of `Del_Used`: the block with the value is between the first and the
last block. -/
theorem Ready.delLoop_spec (fuel first last : ℕ) (hfirst : first < n) (hlast : n < last)
    (hlen : last < col.length) (hfuel : last - first ≤ fuel) :
    ∃ s' blocks, delLoop s col ival fuel first last = .ok (s', blocks) ∧ blocks ≠ some [] ∧
      Result s s' rest (blocks.getD []) (Without s col ival) := by
  induction fuel generalizing first last with
  | zero => omega
  | succ fuel ih =>
    have hassert : ¬ ¬ (first + last) / 2 > first := by omega
    have hmid : (first + last) / 2 < col.length := by omega
    obtain ⟨d, hd⟩ : ∃ d, col[(first + last) / 2]? = some d :=
      ⟨_, getElem?_eq_getElem hmid⟩
    rw [delLoop]
    simp only [if_neg hassert, getBounds_eq hd, bind, Except.bind]
    by_cases hlow : ival < s.rangeStart d
    · rw [if_pos hlow]
      exact ih first _ hfirst (h.lt_of_below hb hin hd hlow) hmid (by omega)
    by_cases hhigh : ival > s.rangeEnd d
    · rw [if_neg hlow, if_pos hhigh]
      exact ih _ last (h.lt_of_above hb hin hd hhigh) hlast hlen (by omega)
    · rw [if_neg hlow, if_neg hhigh]
      exact h.delFromRange_spec hd ⟨not_lt.1 hlow, not_lt.1 hhigh⟩

end

lemma Ready.delUsed_some (h : Ready s rest col) (hold : Covers (s.intervals col) ival) :
    ∃ s' blocks, delUsed s (some col) ival = .ok (s', blocks) ∧ blocks ≠ some [] ∧
      Result s s' rest (blocks.getD []) (Without s col ival) := by
  rcases hold with ⟨a, ha, hin⟩
  rcases mem_map.1 ha with ⟨b, hbmem, rfl⟩
  rcases getElem?_of_mem hbmem with ⟨n, hb⟩
  have hne : col ≠ [] := ne_nil_of_mem hbmem
  rcases exists_first_last hne with ⟨f, c, _, _, _, _, hf, hc⟩
  have hlen : col.length - 1 < col.length := Nat.sub_one_lt_of_lt (List.length_pos_iff.2 hne)
  have hle : n ≤ col.length - 1 := by
    have := (List.getElem?_eq_some_iff.1 hb).1
    omega
  rw [delUsed]
  simp only [if_neg hne, getBounds_eq hf, getBounds_eq hc, bind, Except.bind]
  by_cases hlast : ival ≥ s.rangeStart c
  · rw [if_pos hlast]
    refine h.delFromRange_spec hc ⟨hlast, ?_⟩
    -- Otherwise the value would lie in a block after the last one.
    by_contra hhigh
    have := h.lt_of_above hb hin hc (not_le.1 hhigh)
    omega
  by_cases hfirst : ival ≤ s.rangeEnd f
  · rw [if_neg hlast, if_pos hfirst]
    refine h.delFromRange_spec hf ⟨?_, hfirst⟩
    by_contra hlow
    have := h.lt_of_below hb hin hf (not_le.1 hlow)
    omega
  · rw [if_neg hlast, if_neg hfirst]
    have hbefore := h.lt_of_below hb hin hc (not_le.1 hlast)
    have hafter := h.lt_of_above hb hin hf (not_le.1 hfirst)
    exact h.delLoop_spec hb hin col.length 0 (col.length - 1) hafter hbefore hlen (by omega)

lemma delUsed_spec (h : Ready s rest (blocks.getD []))
    (hold : Covers (s.intervals (blocks.getD [])) ival) :
    ∃ s' blocks', delUsed s blocks ival = .ok (s', blocks') ∧ blocks' ≠ some [] ∧
      Result s s' rest (blocks'.getD []) (Without s (blocks.getD []) ival) := by
  cases blocks with
  | none => exact absurd hold ClosedInterval.covers_nil
  | some col => exact h.delUsed_some hold

end Delete

end Range
end Unameit
