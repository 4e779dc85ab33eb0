import Mathlib.Tactic

/-!
# Uuid — uuids made from the clock

`Create_Uuid` reads the clock and stamps the uuid with the reading, moved on by `time_adjust` as long
as the clock stands still.  At the limit of the adjustment it waits for the clock in a loop.  The flag
of that loop is never cleared, so that such a call does not return; and the limit is far beyond the
distance of two readings, so that an adjusted time can be met again by the clock.
-/

namespace Unameit
namespace Uuid

open Option

structure UuidTime where
  hi : BitVec 32
  lo : BitVec 32
  deriving DecidableEq, Repr

namespace UuidTime

def value (t : UuidTime) : ℕ :=
  t.hi.toNat * 2 ^ 32 + t.lo.toNat

def timeCmp (time1 time2 : UuidTime) : Ordering :=
  if time1.hi < time2.hi then .lt
  else if time1.hi > time2.hi then .gt
  else if time1.lo < time2.lo then .lt
  else if time1.lo > time2.lo then .gt
  else .eq

/-- The macro `UADD_UW_2_UVLW`: the carry is read off the sign bits of the low words. -/
def uaddUw (add1 : BitVec 16) (add2 : UuidTime) : UuidTime :=
  let lo := add1.setWidth 32 + add2.lo
  { hi := if add2.lo.msb && !lo.msb then add2.hi + 1 else add2.hi, lo }

end UuidTime

open UuidTime

/-- The fields of a uuid that `Create_Uuid` fills in, but for the node address. -/
structure UuidT where
  timeLow : BitVec 32
  timeMid : BitVec 16
  timeHiAndVersion : BitVec 16
  clockSeqHiAndReserved : BitVec 8
  clockSeqLow : BitVec 8
  deriving DecidableEq, Repr

/-- The static variables, and how often the clock has been read. -/
structure State where
  timeLast : UuidTime
  timeAdjust : BitVec 16
  clockSeq : BitVec 16
  readings : ℕ

/-- The readings of the clock and the results of `true_random`. -/
structure World where
  clock : ℕ → UuidTime
  random : ℕ → BitVec 16

def maxTimeAdjust : BitVec 16 :=
  0x7fff

def newClockSeq (random clkseq : BitVec 16) : BitVec 16 :=
  let clkseq := if clkseq = 0 then random else clkseq
  let clkseq := (clkseq + 1) &&& 0x3fff
  if clkseq = 0 then clkseq + 1 else clkseq

def State.init (w : World) : State :=
  { timeLast := w.clock 0, timeAdjust := 0, clockSeq := w.random 0, readings := 1 }

/-- The body of the loop of `Create_Uuid`: whether it sets `got_no_time`, and the variables. -/
def readClock (w : World) (s : State) : Bool × State :=
  let s' := { s with readings := s.readings + 1 }
  match timeCmp (w.clock s.readings) s.timeLast with
  | .lt =>
    (false, { s' with clockSeq := newClockSeq (w.random s.readings) s.clockSeq, timeAdjust := 0 })
  | .gt => (false, { s' with timeAdjust := 0 })
  | .eq =>
    if s.timeAdjust = maxTimeAdjust then (true, s')
    else (false, { s' with timeAdjust := s.timeAdjust + 1 })

/-- The loop of `Create_Uuid`, with at most `fuel` readings. -/
def readClockLoop (w : World) : ℕ → Bool → State → Option (UuidTime × State)
  | 0, _, _ => none
  | fuel + 1, gotNoTime, s =>
    let (noTime, s') := readClock w s
    let gotNoTime := gotNoTime || noTime
    if gotNoTime then readClockLoop w fuel gotNoTime s' else some (w.clock s.readings, s')

def makeUuid (timeNow : UuidTime) (clockSeq : BitVec 16) : UuidT where
  timeLow := timeNow.lo
  timeMid := (timeNow.hi &&& 0x0000ffff).setWidth 16
  timeHiAndVersion := ((timeNow.hi &&& 0x0fff0000) >>> 16).setWidth 16 ||| 0x1000
  clockSeqLow := (clockSeq &&& 0xff).setWidth 8
  clockSeqHiAndReserved := ((clockSeq &&& 0x3f00) >>> 8).setWidth 8 ||| 0x80

def createUuid (w : World) (fuel : ℕ) (s : State) : Option (UuidT × State) := do
  let (timeNow, s) ← readClockLoop w fuel false s
  let stamp := if s.timeAdjust ≠ 0 then uaddUw s.timeAdjust timeNow else timeNow
  return (makeUuid stamp s.clockSeq, { s with timeLast := timeNow })

/-- Calls one after the other, each with at most the given number of readings. -/
def calls (w : World) : List ℕ → State → Option (List UuidT × State)
  | [], s => some ([], s)
  | fuel :: fuels, s => do
    let (uuid, s) ← createUuid w fuel s
    let (uuids, s) ← calls w fuels s
    return (uuid :: uuids, s)

/-! ## Times -/

/-- The time of a uuid; its version is left out. -/
def UuidT.time (u : UuidT) : ℕ :=
  (u.timeHiAndVersion.toNat % 2 ^ 12) * 2 ^ 48 + u.timeMid.toNat * 2 ^ 32 + u.timeLow.toNat

def UuidT.clockSeq (u : UuidT) : ℕ :=
  (u.clockSeqHiAndReserved.toNat % 2 ^ 6) * 2 ^ 8 + u.clockSeqLow.toNat

lemma value_injective : value.Injective := by
  rintro ⟨hi, lo⟩ ⟨hi', lo'⟩ heq
  have hlo := lo.isLt
  have hlo' := lo'.isLt
  simp only [value] at heq
  rw [UuidTime.mk.injEq, ← BitVec.toNat_inj, ← BitVec.toNat_inj]
  omega

lemma timeCmp_eq (t t' : UuidTime) : timeCmp t t' = compare t.value t'.value := by
  have hlo := t.lo.isLt
  have hlo' := t'.lo.isLt
  unfold timeCmp value
  simp only [BitVec.lt_def, gt_iff_lt]
  split_ifs <;> symm
  · rw [compare_lt_iff_lt]
    omega
  · rw [compare_gt_iff_gt]
    omega
  · rw [compare_lt_iff_lt]
    omega
  · rw [compare_gt_iff_gt]
    omega
  · rw [compare_eq_iff_eq]
    omega

lemma value_uaddUw (a : BitVec 16) (t : UuidTime) (h : t.value + a.toNat < 2 ^ 64) :
    (uaddUw a t).value = t.value + a.toNat := by
  have ha := a.isLt
  have hlo := t.lo.isLt
  unfold value at h
  unfold uaddUw value
  have hset : (a.setWidth 32).toNat = a.toNat := by
    rw [BitVec.toNat_setWidth]
    omega
  simp only [BitVec.msb_eq_decide, BitVec.toNat_add, hset]
  split_ifs with hcarry
  · simp only [Bool.and_eq_true, decide_eq_true_eq, Bool.not_eq_eq_eq_not, Bool.not_true,
      decide_eq_false_iff_not] at hcarry
    rw [BitVec.toNat_add]
    simp
    omega
  · simp only [Bool.and_eq_true, decide_eq_true_eq, Bool.not_eq_eq_eq_not, Bool.not_true,
      decide_eq_false_iff_not] at hcarry
    omega

lemma time_makeUuid (t : UuidTime) (clockSeq : BitVec 16) :
    (makeUuid t clockSeq).time = t.value % 2 ^ 60 := by
  have hlo := t.lo.isLt
  have hmid : ((t.hi &&& 0x0000ffff).setWidth 16).toNat = t.hi.toNat % 2 ^ 16 := by
    rw [BitVec.toNat_setWidth, BitVec.toNat_and]
    show (t.hi.toNat &&& 2 ^ 16 - 1) % 2 ^ 16 = _
    rw [Nat.and_two_pow_sub_one_eq_mod, Nat.mod_mod]
  have hhigh : (((t.hi &&& 0x0fff0000) >>> 16).setWidth 16 ||| 0x1000).toNat % 2 ^ 12 =
      t.hi.toNat / 2 ^ 16 % 2 ^ 12 := by
    apply Nat.eq_of_testBit_eq
    intro i
    rw [Nat.testBit_mod_two_pow, Nat.testBit_mod_two_pow, Nat.testBit_div_two_pow, BitVec.testBit_toNat]
    by_cases hi : i < 12
    · have hmask : ∀ i < 12, (0x0fff0000 : BitVec 32).getLsbD (16 + i) = true ∧
          (0x1000 : BitVec 16).getLsbD i = false := by
        decide
      have hlt : i < 16 := by omega
      rw [BitVec.getLsbD_or, BitVec.getLsbD_setWidth, BitVec.getLsbD_ushiftRight, BitVec.getLsbD_and,
        (hmask i hi).1, (hmask i hi).2, Nat.add_comm i 16, BitVec.testBit_toNat]
      simp [hlt, hi]
    · simp [hi]
  unfold UuidT.time makeUuid value
  simp only [hmid, hhigh]
  omega

/-! ## Calls -/

/-- What the clock says next, for a call in the state `s`: it has left the adjusted times behind, and
the sixty bits of the uuid suffice. -/
structure Fits (w : World) (s : State) : Prop where
  later : s.timeLast.value < (w.clock s.readings).value →
    s.timeLast.value + s.timeAdjust.toNat < (w.clock s.readings).value
  room : (w.clock s.readings).value + s.timeAdjust.toNat + 1 < 2 ^ 60

def AllFit (w : World) : List ℕ → State → Prop
  | [], _ => True
  | fuel :: fuels, s =>
    Fits w s ∧ ∀ uuid s', createUuid w fuel s = some (uuid, s') → AllFit w fuels s'

/-- The state of a process whose clock does not go back. -/
structure Ordered (w : World) (s : State) : Prop where
  mono : Monotone fun n => (w.clock n).value
  last : s.timeLast.value ≤ (w.clock s.readings).value
  adjust : s.timeAdjust.toNat ≤ 0x7fff

/-- The flag of the loop is never cleared. -/
theorem readClockLoop_true (w : World) (fuel : ℕ) : ∀ s, readClockLoop w fuel true s = none := by
  induction fuel with
  | zero => exact fun s => rfl
  | succ fuel ih => exact fun s => ih _

variable {w : World} {s : State}

/-- A call that returns reads the clock once. -/
theorem readClockLoop_false (w : World) (fuel : ℕ) (s : State) :
    readClockLoop w (fuel + 1) false s =
      if (readClock w s).1 then none else some (w.clock s.readings, (readClock w s).2) := by
  rw [readClockLoop]
  rcases readClock w s with ⟨_ | _, s'⟩
  · rfl
  · exact readClockLoop_true w fuel s'

lemma readClock_later (hlt : s.timeLast.value < (w.clock s.readings).value) :
    readClock w s = (false, { s with readings := s.readings + 1, timeAdjust := 0 }) := by
  have hcmp : timeCmp (w.clock s.readings) s.timeLast = .gt := by
    rw [timeCmp_eq, compare_gt_iff_gt.2 hlt]
  rw [readClock, hcmp]

lemma readClock_same (heq : w.clock s.readings = s.timeLast) :
    readClock w s =
      if s.timeAdjust = maxTimeAdjust then (true, { s with readings := s.readings + 1 })
      else (false, { s with readings := s.readings + 1, timeAdjust := s.timeAdjust + 1 }) := by
  have hcmp : timeCmp (w.clock s.readings) s.timeLast = .eq := by
    rw [timeCmp_eq, compare_eq_iff_eq.2 (congrArg value heq)]
  rw [readClock, hcmp]

lemma readClock_fst_iff (w : World) (s : State) :
    (readClock w s).1 = true ↔ w.clock s.readings = s.timeLast ∧ s.timeAdjust = maxTimeAdjust := by
  rcases lt_trichotomy (w.clock s.readings).value s.timeLast.value with hlt | heq | hgt
  · have hcmp : timeCmp (w.clock s.readings) s.timeLast = .lt := by
      rw [timeCmp_eq, compare_lt_iff_lt.2 hlt]
    have hfalse : (readClock w s).1 = false := by
      rw [readClock, hcmp]
    exact iff_of_false (by simp [hfalse]) fun h => hlt.ne (congrArg value h.1)
  · have hsame := value_injective heq
    rw [readClock_same hsame]
    by_cases hmax : s.timeAdjust = maxTimeAdjust
    · rw [if_pos hmax]
      exact iff_of_true rfl ⟨hsame, hmax⟩
    · rw [if_neg hmax]
      exact iff_of_false Bool.false_ne_true fun h => hmax h.2
  · rw [readClock_later hgt]
    exact iff_of_false Bool.false_ne_true fun h => hgt.ne' (congrArg value h.1)

/-- A call returns if it does not find the adjustment at its limit and the clock where it was. -/
theorem createUuid_returns_iff (w : World) (s : State) :
    (∃ fuel, (createUuid w fuel s).isSome) ↔
      ¬ (w.clock s.readings = s.timeLast ∧ s.timeAdjust = maxTimeAdjust) := by
  rw [← readClock_fst_iff]
  constructor
  · rintro ⟨_ | fuel, hfuel⟩ hstuck
    · simp [createUuid, readClockLoop] at hfuel
    · simp [createUuid, readClockLoop_false, hstuck] at hfuel
  · intro hgo
    exact ⟨1, by simp [createUuid, readClockLoop_false, hgo]⟩

lemma time_stamp (t : UuidTime) (a clockSeq : BitVec 16) (h : t.value + a.toNat < 2 ^ 60) :
    (makeUuid (if a ≠ 0 then uaddUw a t else t) clockSeq).time = t.value + a.toNat := by
  rw [time_makeUuid]
  split_ifs with ha
  · rw [value_uaddUw a t (by omega), Nat.mod_eq_of_lt h]
  · have hzero : a.toNat = 0 := by
      rw [not_not.1 ha]
      rfl
    rw [hzero, Nat.add_zero] at h ⊢
    exact Nat.mod_eq_of_lt h

lemma Ordered.createUuid (h : Ordered w s) (hfit : Fits w s) {fuel : ℕ} {u : UuidT} {s' : State}
    (hcall : createUuid w fuel s = some (u, s')) :
    Ordered w s' ∧ u.time = s'.timeLast.value + s'.timeAdjust.toNat ∧
      s.timeLast.value + s.timeAdjust.toNat < u.time := by
  have hroom := hfit.room
  have hnext := h.mono (Nat.le_succ s.readings)
  cases fuel with
  | zero => simp [Uuid.createUuid, readClockLoop] at hcall
  | succ fuel =>
    rw [Uuid.createUuid, readClockLoop_false] at hcall
    rcases h.last.lt_or_eq with hlt | heq
    · -- the clock has ticked
      rw [readClock_later hlt] at hcall
      obtain ⟨rfl, rfl⟩ := Prod.mk.inj (some.inj hcall)
      have hzero : (0 : BitVec 16).toNat = 0 := rfl
      have hlater := hfit.later hlt
      have htime := time_stamp (w.clock s.readings) 0 s.clockSeq (by omega)
      refine ⟨⟨h.mono, hnext, Nat.zero_le _⟩, htime, ?_⟩
      refine lt_of_lt_of_eq ?_ htime.symm
      omega
    · -- the clock stands still
      have hsame := value_injective heq
      rw [readClock_same hsame.symm] at hcall
      by_cases hmax : s.timeAdjust = maxTimeAdjust
      · rw [if_pos hmax] at hcall
        exact absurd hcall (by simp)
      · rw [if_neg hmax] at hcall
        obtain ⟨rfl, rfl⟩ := Prod.mk.inj (some.inj hcall)
        have hne : s.timeAdjust.toNat ≠ 0x7fff := fun heq => hmax (BitVec.eq_of_toNat_eq heq)
        have hadjust := h.adjust
        have hsucc : (s.timeAdjust + 1).toNat = s.timeAdjust.toNat + 1 := by
          rw [BitVec.toNat_add]
          exact Nat.mod_eq_of_lt (by show _ + 1 < _; omega)
        have htime := time_stamp (w.clock s.readings) (s.timeAdjust + 1) s.clockSeq (by omega)
        refine ⟨⟨h.mono, hnext, ?_⟩, htime, ?_⟩
        · show (s.timeAdjust + 1).toNat ≤ _
          omega
        · refine lt_of_lt_of_eq ?_ htime.symm
          omega

lemma calls_increasing (fuels : List ℕ) : ∀ s us s', Ordered w s → AllFit w fuels s →
    calls w fuels s = some (us, s') →
    us.Pairwise (fun u u' => u.time < u'.time) ∧
      ∀ u ∈ us, s.timeLast.value + s.timeAdjust.toNat < u.time := by
  induction fuels with
  | nil =>
    intro s us s' _ _ hrun
    obtain ⟨rfl, rfl⟩ := Prod.mk.inj (some.inj hrun)
    simp
  | cons fuel fuels ih =>
    intro s us s' h hfit hrun
    rw [calls, bind_eq_bind, bind_eq_some_iff] at hrun
    obtain ⟨⟨u, t⟩, hcall, hrun⟩ := hrun
    rw [bind_eq_bind, bind_eq_some_iff] at hrun
    obtain ⟨⟨vs, t'⟩, hrest, hrun⟩ := hrun
    obtain ⟨rfl, rfl⟩ := Prod.mk.inj (some.inj hrun)
    obtain ⟨ht, htime, hlt⟩ := h.createUuid hfit.1 hcall
    obtain ⟨hpair, habove⟩ := ih t vs t' ht (hfit.2 _ _ hcall) hrest
    rw [← htime] at habove
    refine ⟨List.pairwise_cons.2 ⟨habove, hpair⟩, ?_⟩
    rintro v (_ | ⟨_, hv⟩)
    · exact hlt
    · exact hlt.trans (habove v hv)

/-- As long as the clock leaves the adjusted times behind, the uuids of a process whose clock does
not go back are distinct, and a call returns unless the adjustment is at its limit and the clock stands
still. -/
theorem calls_distinct (w : World) (hclock : Monotone fun n => (w.clock n).value)
    (fuels : List ℕ) (us : List UuidT) (s : State) (hrun : calls w fuels (.init w) = some (us, s))
    (hfit : AllFit w fuels (.init w)) :
    us.Pairwise (fun u u' => (u.time, u.clockSeq) ≠ (u'.time, u'.clockSeq)) ∧
      ((∃ fuel, (createUuid w fuel s).isSome) ↔
        ¬ (w.clock s.readings = s.timeLast ∧ s.timeAdjust = maxTimeAdjust)) := by
  have hinit : Ordered w (.init w) := ⟨hclock, hclock (Nat.zero_le 1), Nat.zero_le _⟩
  refine ⟨(calls_increasing fuels _ us s hinit hfit hrun).1.imp fun hlt heq => ?_,
    createUuid_returns_iff w s⟩
  exact hlt.ne (Prod.mk.inj heq).1

/-- A clock that stands still for some readings and then goes on by one microsecond. -/
def stepClock (still : ℕ) : World where
  clock n := ⟨0, if n ≤ still then 0 else 10⟩
  random _ := 1

lemma monotone_stepClock (still : ℕ) : Monotone fun n => ((stepClock still).clock n).value := by
  intro m n hmn
  unfold stepClock UuidTime.value
  dsimp only
  split_ifs
  · exact le_rfl
  · decide
  · omega
  · exact le_rfl

theorem calls_distinct_stepClock :
    ∃ us s, calls (stepClock 1) [1, 1] (.init (stepClock 1)) = some (us, s) ∧
      us.Pairwise fun u u' => (u.time, u.clockSeq) ≠ (u'.time, u'.clockSeq) := by
  refine ⟨_, _, rfl, (calls_distinct _ (monotone_stepClock 1) [1, 1] _ _ rfl ?_).1⟩
  refine ⟨⟨by decide, by decide⟩, fun _ _ hcall => ?_⟩
  obtain ⟨-, rfl⟩ := Prod.mk.inj (some.inj hcall)
  exact ⟨⟨by decide, by decide⟩, fun _ _ _ => trivial⟩

/-- Ten uuids in one microsecond and one more in the next: the last two are the same. -/
theorem calls_repeat :
    (∀ n, (stepClock 10).clock n = (stepClock 10).clock (n + 1) ∨
      ((stepClock 10).clock n).value + 10 ≤ ((stepClock 10).clock (n + 1)).value) ∧
    ∃ us s, calls (stepClock 10) (List.replicate 11 1) (.init (stepClock 10)) = some (us, s) ∧
      ¬ us.Pairwise fun u u' => (u.time, u.clockSeq) ≠ (u'.time, u'.clockSeq) := by
  refine ⟨fun n => ?_, _, _, rfl, by decide +kernel⟩
  unfold stepClock UuidTime.value
  rcases Nat.lt_trichotomy n 10 with hlt | rfl | hgt
  · exact Or.inl (by simp [hlt.le, Nat.succ_le_of_lt hlt])
  · exact Or.inr (by decide)
  · exact Or.inl (by simp [Nat.not_le.2 hgt, hgt.le])

end Uuid
end Unameit
