import Unameit.NetCheck.Basic
import Unameit.Lib.Loops
import Unameit.Lib.Spans

/-!
# NetCheck.Ranges — what the check of ranges finds

`unameit_inet_check_ranges` looks for parent nets that are subnetted, whose ranges overlap, or that
have a range on a reserved address.  For a single parent net it finds exactly these faults.  The
variables `last` and `lastend` survive from one net to the next, however: the first range of any
later net is compared with the last range of the net before, and not with the first address of its
own net.
-/

namespace Unameit
namespace NetCheck

open List

variable (info : Info) (db : Db)

/-! ## The rules -/

def Overlapping (net : DbObject) : Prop :=
  ∃ r ∈ db.netRanges net, ∃ r' ∈ db.netRanges net, r ≠ r' ∧
    Spans.Meet (fun r => (db.range r).rangeStart) (fun r => (db.range r).rangeEnd) r r'

/-- A range that does not deny all nodes starts at the first address of the net, which is
reserved. -/
def ZeroRange (net range : DbObject) : Prop :=
  info.nodeZero = .reserved ∧ (db.range range).rangeStart = (db.net net).netStart ∧
    ¬ (db.range range).DenyAll

/-- A range that does not deny all nodes ends at the last address of the net, which is reserved. -/
def EndRange (net range : DbObject) : Prop :=
  info.lastNode = .reserved ∧ (db.range range).rangeEnd = (db.net net).netEnd ∧
    ¬ (db.range range).DenyAll

def RangesFaulty (net : DbObject) : Prop :=
  (db.net net).Subnetted ∨ Overlapping db net ∨ (∃ r ∈ db.netRanges net, ZeroRange info db net r) ∨
    ∃ r ∈ db.netRanges net, EndRange info db net r

/-- The errors that stand for these rules. -/
def Fault.isRangeRule : Fault → Bool
  | .einetSubnetted .. => true
  | .einetRangeOverlap .. => true
  | .einetNodeZero .. => true
  | .einetLastNode .. => true
  | _ => false

/-- The block tree lists the ranges of the parent nets: each checked range is listed with its
parent, by ascending start and within the addresses of the net. -/
structure RangesListed (ranges : List DbObject) : Prop where
  listed : ∀ r ∈ ranges, r ∈ db.netRanges (db.range r).netof
  ascending : ∀ net ∈ ranges.map fun r => (db.range r).netof,
    Spans.Ascending (fun r => (db.range r).rangeStart) (fun r => (db.range r).rangeEnd)
      (db.netRanges net)
  inside : ∀ net ∈ ranges.map fun r => (db.range r).netof, ∀ r ∈ db.netRanges net,
    (db.net net).netStart ≤ (db.range r).rangeStart ∧ (db.range r).rangeEnd ≤ (db.net net).netEnd

/-! ## One net -/

def FirstBad (net : DbObject) (last : Option DbObject) (range : DbObject) : Prop :=
  match last with
  | none => ZeroRange info db net range
  | some last => (db.range range).rangeStart ≤ (db.range last).rangeEnd

def RangesBad (last : Option DbObject) (net : DbObject) : Prop :=
  (db.net net).Subnetted ∨ Overlapping db net ∨
    (∃ r ∈ (db.netRanges net).head?, FirstBad info db net last r) ∨
      ∃ r ∈ db.netRanges net, EndRange info db net r

variable {info db} {net : DbObject} {last : Option DbObject} {range : DbObject}

lemma checkNetRange_ok (h : ¬ FirstBad info db net last range) :
    checkNetRange info db net last range = .ok (some range) := by
  cases last with
  | none => exact if_neg h
  | some l => exact if_neg h

lemma checkNetRange_error (h : FirstBad info db net last range) :
    ∃ e : Fault, e.isRangeRule ∧ checkNetRange info db net last range = .error e := by
  cases last with
  | none => exact ⟨_, rfl, if_pos h⟩
  | some l => exact ⟨_, rfl, if_pos h⟩

/-- The loop over the ranges of a net stops at ranges that overlap, or at a bad first range. -/
theorem checkNetRanges_spec (info : Info) (net : DbObject) (last : Option DbObject)
    (l : List DbObject) (hl : l ≠ []) :
    (¬ Spans.Crowded (fun r => (db.range r).rangeStart) (fun r => (db.range r).rangeEnd) l ∧
          ¬ (∃ r ∈ l.head?, FirstBad info db net last r)) ∧
        l.foldlM (checkNetRange info db net) last = .ok l.getLast? ∨
      (Spans.Crowded (fun r => (db.range r).rangeStart) (fun r => (db.range r).rangeEnd) l ∨
          ∃ r ∈ l.head?, FirstBad info db net last r) ∧
        ∃ e : Fault, e.isRangeRule ∧ l.foldlM (checkNetRange info db net) last = .error e := by
  have hloop := foldlM_after_prefix (checkNetRange info db net) l
    (fun done => done.getLast?.or last)
    (fun done r => FirstBad info db net (done.getLast?.or last) r) (fun e => e.isRangeRule)
    (fun done r rest _ h => by simpa using checkNetRange_ok h)
    (fun done r rest _ h => checkNetRange_error h)
  -- the ranges at which the loop stops are the first one and those that crowd the one before
  have hbad : (∃ done r rest, l = done ++ r :: rest ∧
        FirstBad info db net (done.getLast?.or last) r) ↔
      Spans.Crowded (fun r => (db.range r).rangeStart) (fun r => (db.range r).rangeEnd) l ∨
        ∃ r ∈ l.head?, FirstBad info db net last r := by
    constructor
    · rintro ⟨done, r, rest, rfl, h⟩
      cases hlast : done.getLast? with
      | none =>
        rw [getLast?_eq_none_iff] at hlast
        subst hlast
        exact .inr ⟨r, rfl, h⟩
      | some p =>
        rw [hlast] at h
        exact .inl ⟨done, r, rest, rfl, p, hlast, h⟩
    · rintro (⟨done, r, rest, rfl, p, hp, hle⟩ | ⟨r, hr, h⟩)
      · refine ⟨done, r, rest, rfl, ?_⟩
        rw [Option.mem_def.1 hp]
        exact hle
      · obtain ⟨rest, rfl⟩ : ∃ rest, l = r :: rest := head?_eq_some_iff.1 hr
        exact ⟨[], r, rest, rfl, h⟩
  rcases hloop with ⟨hall, hok⟩ | ⟨hex, herror⟩
  · refine .inl ⟨not_or.1 fun h => ?_, ?_⟩
    · obtain ⟨done, r, rest, heq, h⟩ := hbad.2 h
      exact hall done r rest heq h
    · obtain ⟨r, hr⟩ := Option.isSome_iff_exists.1 (getLast?_isSome.2 hl)
      simpa [hr] using hok
  · exact .inr ⟨hbad.1 hex, herror⟩

section Listed

variable (hasc : Spans.Ascending (fun r => (db.range r).rangeStart)
    (fun r => (db.range r).rangeEnd) (db.netRanges net))
  (hin : ∀ r ∈ db.netRanges net, (db.net net).netStart ≤ (db.range r).rangeStart ∧
    (db.range r).rangeEnd ≤ (db.net net).netEnd)

include hasc hin

/-- Only the first of the ranges can start at the first address, unless ranges overlap. -/
theorem exists_zeroRange_iff (hov : ¬ Overlapping db net) :
    (∃ r ∈ db.netRanges net, ZeroRange info db net r) ↔
      ∃ r ∈ (db.netRanges net).head?, ZeroRange info db net r := by
  constructor
  · rintro ⟨r, hr, hzero⟩
    obtain ⟨f, rest, hl⟩ := exists_cons_of_ne_nil (ne_nil_of_mem hr)
    have hf : f ∈ db.netRanges net := by rw [hl]; exact mem_cons_self
    refine ⟨f, by rw [hl]; rfl, ?_⟩
    by_cases heq : r = f
    · exact heq ▸ hzero
    -- otherwise both start there
    · refine absurd ⟨r, hr, f, hf, heq, ?_⟩ hov
      have hle : (db.range r).rangeStart ≤ (db.range f).rangeStart := by
        rw [hzero.2.1]
        exact (hin f hf).1
      have hge : (db.range f).rangeStart ≤ (db.range r).rangeStart := by
        have hmem : r ∈ rest := by
          rw [hl] at hr
          exact (mem_cons.1 hr).resolve_left heq
        have hpair := hasc.ascending
        rw [hl] at hpair
        exact (pairwise_cons.1 hpair).1 r hmem
      exact ⟨hle.trans (hasc.proper f hf), hge.trans (hasc.proper r hr)⟩
  · rintro ⟨r, hr, hzero⟩
    exact ⟨r, mem_of_head? hr, hzero⟩

/-- Only the last of the ranges can end at the last address, unless ranges overlap. -/
theorem exists_endRange_iff (hov : ¬ Overlapping db net) :
    (∃ r ∈ db.netRanges net, EndRange info db net r) ↔
      ∃ r ∈ (db.netRanges net).getLast?, EndRange info db net r := by
  constructor
  · rintro ⟨r, hr, hend⟩
    obtain ⟨f, hlast⟩ := Option.isSome_iff_exists.1 (getLast?_isSome.2 (ne_nil_of_mem hr))
    have hf : f ∈ db.netRanges net := mem_of_getLast? hlast
    refine ⟨f, hlast, ?_⟩
    by_cases heq : r = f
    · exact heq ▸ hend
    · refine absurd ⟨r, hr, f, hf, heq, ?_⟩ hov
      obtain ⟨front, hl⟩ := getLast?_eq_some_iff.1 hlast
      have hle : (db.range r).rangeStart ≤ (db.range f).rangeStart := by
        have hmem : r ∈ front := by
          rw [hl] at hr
          simpa [heq] using hr
        have hpair := hasc.ascending
        rw [hl] at hpair
        exact (pairwise_append.1 hpair).2.2 r hmem f mem_cons_self
      refine ⟨hle.trans (hasc.proper f hf), ?_⟩
      show (db.range f).rangeStart ≤ (db.range r).rangeEnd
      rw [hend.2.1]
      exact (hasc.proper f hf).trans (hin f hf).2
  · rintro ⟨r, hr, hend⟩
    exact ⟨r, mem_of_getLast? hr, hend⟩

lemma checkRangesOf_spec (info : Info) (ranges : List DbObject) (last : Option DbObject)
    (hne : db.netRanges net ≠ []) :
    ¬ RangesBad info db last net ∧
        checkRangesOf info db ranges last net = .ok (db.netRanges net).getLast? ∨
      RangesBad info db last net ∧
        ∃ e : Fault, e.isRangeRule ∧ checkRangesOf info db ranges last net = .error e := by
  unfold checkRangesOf
  by_cases hsub : (db.net net).Subnetted
  · rw [if_pos hsub]
    exact .inr ⟨.inl hsub, _, rfl, rfl⟩
  rw [if_neg hsub]
  have hoverlap : Overlapping db net ↔ _ := hasc.exists_meet_iff
  rcases checkNetRanges_spec info net last (db.netRanges net) hne with
    ⟨⟨hcrowd, hfirst⟩, hok⟩ | ⟨hbad, e, hrule, he⟩
  · have hov : ¬ Overlapping db net := fun h => hcrowd (hoverlap.1 h)
    unfold RangesBad
    rw [hok, exists_endRange_iff hasc hin hov]
    obtain ⟨f, hf⟩ := Option.isSome_iff_exists.1 (getLast?_isSome.2 hne)
    simp only [hf, Option.mem_def, Option.some.injEq, exists_eq_left']
    by_cases hend : EndRange info db net f
    · exact .inr ⟨.inr (.inr (.inr hend)), _, rfl, if_pos hend⟩
    · refine .inl ⟨?_, if_neg hend⟩
      rintro (h | h | h | h)
      · exact hsub h
      · exact hov h
      · exact hfirst h
      · exact hend h
  · rw [he]
    refine .inr ⟨?_, e, hrule, rfl⟩
    rcases hbad with h | h
    · exact .inr (.inl (hoverlap.2 h))
    · exact .inr (.inr (.inl h))

end Listed

/-! ## All nets -/

variable (info db)

def RangesFaultyBeyondZero (net : DbObject) : Prop :=
  (db.net net).Subnetted ∨ Overlapping db net ∨ ∃ r ∈ db.netRanges net, EndRange info db net r

def ZeroFaulty (net : DbObject) : Prop :=
  ∃ r ∈ db.netRanges net, ZeroRange info db net r

/-- Of two nets that are visited one right after the other, the second has a range that does not
start after the last range of the first. -/
def Leaks (order : List DbObject) : Prop :=
  ∃ net next, [net, next] <:+: order ∧ ∃ last ∈ (db.netRanges net).getLast?,
    ∃ first ∈ (db.netRanges next).head?, (db.range first).rangeStart ≤ (db.range last).rangeEnd

def lastRange (done : List DbObject) : Option DbObject :=
  done.getLast?.bind fun net => (db.netRanges net).getLast?

variable {info db} {order ranges : List DbObject}

lemma RangesListed.ne_nil (h : RangesListed db ranges)
    (hnet : net ∈ ranges.map fun r => (db.range r).netof) : db.netRanges net ≠ [] := by
  obtain ⟨r, hr, rfl⟩ := mem_map.1 hnet
  exact ne_nil_of_mem (h.listed r hr)

/-- The nets at which the check stops: those that break a rule, the first one if it breaks the rule
for the first address, and any later one that is taken to overlap the net before. -/
theorem exists_rangesBad_iff (h : RangesListed db ranges)
    (hmem : ∀ net ∈ order, net ∈ ranges.map fun r => (db.range r).netof) :
    (∃ done net rest, order = done ++ net :: rest ∧
        RangesBad info db (lastRange db done) net) ↔
      (∃ net ∈ order, RangesFaultyBeyondZero info db net) ∨
        (∃ net ∈ order.head?, ZeroFaulty info db net) ∨ Leaks db order := by
  constructor
  · rintro ⟨done, net, rest, hdone, hbad⟩
    have hnet : net ∈ order := by rw [hdone]; simp
    rcases hbad with hsub | hov | ⟨r, hr, hfirst⟩ | hend
    · exact .inl ⟨net, hnet, .inl hsub⟩
    · exact .inl ⟨net, hnet, .inr (.inl hov)⟩
    · refine .inr ?_
      cases hlast : done.getLast? with
      | none =>
        have hnil := getLast?_eq_none_iff.1 hlast
        subst hnil
        exact .inl ⟨net, by rw [hdone]; rfl, r, mem_of_head? hr, hfirst⟩
      | some p =>
        obtain ⟨front, rfl⟩ := getLast?_eq_some_iff.1 hlast
        have hp : p ∈ order := by rw [hdone]; simp
        obtain ⟨l, hl⟩ := Option.isSome_iff_exists.1
          (getLast?_isSome.2 (h.ne_nil (hmem p hp)))
        have hcarry : lastRange db (front ++ [p]) = some l := by
          rw [lastRange, hlast]
          exact hl
        rw [hcarry] at hfirst
        exact .inr ⟨p, net, ⟨front, rest, by simp [hdone]⟩, l, hl, r, hr, hfirst⟩
    · exact .inl ⟨net, hnet, .inr (.inr hend)⟩
  · have hbase : ∀ net ∈ order, RangesFaultyBeyondZero info db net →
        ∃ done net rest, order = done ++ net :: rest ∧
          RangesBad info db (lastRange db done) net := by
      intro net hnet hfaulty
      obtain ⟨done, rest, hdone⟩ := append_of_mem hnet
      refine ⟨done, net, rest, hdone, ?_⟩
      rcases hfaulty with hsub | hov | hend
      · exact .inl hsub
      · exact .inr (.inl hov)
      · exact .inr (.inr (.inr hend))
    rintro (⟨net, hnet, hfaulty⟩ | ⟨net, hnet, hzero⟩ |
      ⟨net, next, ⟨front, rest, hord⟩, l, hl, r, hr, hle⟩)
    · exact hbase net hnet hfaulty
    · by_cases hov : Overlapping db net
      · exact hbase net (mem_of_head? hnet) (.inr (.inl hov))
      · obtain ⟨rest, hord⟩ := head?_eq_some_iff.1 hnet
        have hparent := hmem net (mem_of_head? hnet)
        refine ⟨[], net, rest, hord, .inr (.inr (.inl ?_))⟩
        exact (exists_zeroRange_iff (h.ascending net hparent) (h.inside net hparent) hov).1 hzero
    · refine ⟨front ++ [net], next, rest, by simp [← hord],
        .inr (.inr (.inl ⟨r, hr, ?_⟩))⟩
      have hcarry : lastRange db (front ++ [net]) = some l := by
        rw [lastRange, getLast?_concat]
        exact hl
      rw [hcarry]
      exact hle

lemma exists_rangesFaulty_iff :
    (∃ net ∈ order, RangesFaulty info db net) ↔
      (∃ net ∈ order, RangesFaultyBeyondZero info db net) ∨
        (∃ net ∈ order.head?, ZeroFaulty info db net) ∨
          ∃ net ∈ order.tail, ZeroFaulty info db net := by
  have hsplit : ∀ net, RangesFaulty info db net ↔
      RangesFaultyBeyondZero info db net ∨ ZeroFaulty info db net := by
    intro net
    simp only [RangesFaulty, RangesFaultyBeyondZero, ZeroFaulty, or_assoc]
    rw [or_comm (a := ∃ r ∈ db.netRanges net, ZeroRange info db net r)]
  simp only [hsplit, and_or_left, exists_or]
  refine or_congr_right ?_
  cases order with
  | nil => simp
  | cons net order => simp

lemma checkRangeNodes_not_rule
    {udbInetCheckRange : DbObject → CString → CString → List CString → Option DbObject} {e : Fault}
    (l : List DbObject) (he : l.forM (checkRangeNodes udbInetCheckRange info db) = .error e) :
    e.isRangeRule = false := by
  obtain ⟨r, -, hr⟩ := exists_of_forM_error he
  unfold checkRangeNodes at hr
  cases hnode : udbInetCheckRange r (db.range r).rangeStart (db.range r).rangeEnd
    (allowedClasses info (db.range r)) with
  | some node =>
    simp only [hnode] at hr
    cases hr
    rfl
  | none =>
    simp only [hnode] at hr
    cases hr

lemma checkRanges_rule_iff
    (udbInetCheckRange : DbObject → CString → CString → List CString → Option DbObject)
    (h : RangesListed db ranges)
    (hmem : ∀ net ∈ order, net ∈ ranges.map fun r => (db.range r).netof) :
    (∃ e, unameitInetCheckRanges udbInetCheckRange info db order ranges = .error e ∧
        e.isRangeRule) ↔
      (∃ net ∈ order, RangesFaultyBeyondZero info db net) ∨
        (∃ net ∈ order.head?, ZeroFaulty info db net) ∨ Leaks db order := by
  rw [← exists_rangesBad_iff h hmem]
  unfold unameitInetCheckRanges
  have hspec : ∀ done net rest, order = done ++ net :: rest → _ :=
    fun done net rest hord =>
      have hparent := hmem net (by rw [hord]; simp)
      checkRangesOf_spec (h.ascending net hparent) (h.inside net hparent) info ranges
        (lastRange db done) (h.ne_nil hparent)
  have hafter : ∀ done net, lastRange db (done ++ [net]) = (db.netRanges net).getLast? := by
    intro done net
    rw [lastRange, getLast?_concat]
    rfl
  rcases foldlM_after_prefix (checkRangesOf info db ranges) order (lastRange db)
    (fun done net => RangesBad info db (lastRange db done) net) (fun e => e.isRangeRule)
    (fun done net rest hord hgood => by
      rw [hafter]
      exact ((hspec done net rest hord).resolve_right fun hbad => hgood hbad.1).2)
    (fun done net rest hord hbad =>
      ((hspec done net rest hord).resolve_left fun hgood => hgood.1 hbad).2)
    with ⟨hall, hok⟩ | ⟨hex, e, hrule, he⟩
  · have hstart : lastRange db [] = none := rfl
    rw [hstart] at hok
    rw [hok]
    constructor
    · rintro ⟨e, he, hrule⟩
      rw [checkRangeNodes_not_rule ranges he] at hrule
      cases hrule
    · rintro ⟨done, net, rest, hord, hbad⟩
      exact absurd hbad (hall done net rest hord)
  · have hstart : lastRange db [] = none := rfl
    rw [hstart] at he
    rw [he]
    exact ⟨fun _ => hex, fun _ => ⟨e, rfl, hrule⟩⟩

/-- The check of ranges reports a broken rule exactly when a parent net of a checked range breaks
one, if and only if: some net breaks a rule other than that for the first address, or the net
visited first breaks this one, or later nets break this rule just when there are two nets in a row
of which the second starts too low. -/
theorem checkRanges_exact_iff
    (udbInetCheckRange : DbObject → CString → CString → List CString → Option DbObject)
    (info : Info) (db : Db) (order ranges : List DbObject) (h : RangesListed db ranges)
    (horder : ArrayNames order (ranges.map fun r => (db.range r).netof)) :
    ((∃ e, unameitInetCheckRanges udbInetCheckRange info db order ranges = .error e ∧
          e.isRangeRule) ↔
        ∃ r ∈ ranges, RangesFaulty info db (db.range r).netof) ↔
      (∃ r ∈ ranges, RangesFaultyBeyondZero info db (db.range r).netof) ∨
        (∃ net ∈ order.head?, ZeroFaulty info db net) ∨
          ((∃ net ∈ order.tail, ZeroFaulty info db net) ↔ Leaks db order) := by
  have hparents : ∀ P : DbObject → Prop,
      (∃ r ∈ ranges, P (db.range r).netof) ↔ ∃ net ∈ order, P net := by
    intro P
    constructor
    · rintro ⟨r, hr, hP⟩
      exact ⟨_, (horder.2 _).2 (mem_map.2 ⟨r, hr, rfl⟩), hP⟩
    · rintro ⟨net, hnet, hP⟩
      obtain ⟨r, hr, rfl⟩ := mem_map.1 ((horder.2 net).1 hnet)
      exact ⟨r, hr, hP⟩
  rw [checkRanges_rule_iff udbInetCheckRange h fun net hnet => (horder.2 net).1 hnet,
    hparents (RangesFaulty info db), hparents (RangesFaultyBeyondZero info db),
    exists_rangesFaulty_iff, or_iff_or_iff]
  refine or_congr_right ?_
  rw [or_iff_or_iff]
  exact or_congr_right iff_comm

/-! ## Two nets -/

instance (r r' : DbObject) : Decidable (Spans.Meet (fun r => (db.range r).rangeStart)
    (fun r => (db.range r).rangeEnd) r r') :=
  inferInstanceAs (Decidable (_ ∧ _))

instance (net : DbObject) : Decidable (Overlapping db net) :=
  inferInstanceAs (Decidable (∃ r ∈ _, ∃ r' ∈ _, _ ∧ _))

instance (net range : DbObject) : Decidable (ZeroRange info db net range) :=
  inferInstanceAs (Decidable (_ ∧ _))

instance (net range : DbObject) : Decidable (EndRange info db net range) :=
  inferInstanceAs (Decidable (_ ∧ _))

instance (net : DbObject) : Decidable (ZeroFaulty info db net) :=
  inferInstanceAs (Decidable (∃ r ∈ _, _))

instance (net : DbObject) : Decidable (RangesFaulty info db net) :=
  inferInstanceAs (Decidable (_ ∨ _))

def halves : Db where
  net o :=
    { netof := some 0
      netStart := if o = 1 then ['8', '0'] else ['0', '0']
      netEnd := if o = 1 then ['f', 'f'] else ['7', 'f']
      netBits := 1
      netMask := ['8', '0']
      netType := .fixed }
  range o :=
    { netof := if o = 3 then 1 else 2
      rangeStart := if o = 3 then ['9', '0'] else ['1', '0']
      rangeEnd := if o = 3 then ['9', 'f'] else ['1', 'f']
      rangeType := .dynamic
      rangeDevices := [] }
  node _ := { netof := 0, address := [] }
  cls _ := []
  owner _ := none
  depth _ := 0
  depth_lt := @Db.depth_lt_of_no_owner
  netRanges o := if o = 1 then [3] else if o = 2 then [4] else []
  netAnode _ := none
  netAsubnet _ := none

/-- If the upper half is visited first, the range of the lower half is taken to overlap the range of
the upper half. -/
theorem checkRanges_overlap_of_halves :
    unameitInetCheckRanges (fun _ _ _ _ => none) unreserved halves [1, 2] [3, 4] =
        .error (.einetRangeOverlap 4 3) ∧
      ¬ ∃ r ∈ [3, 4], RangesFaulty unreserved halves (halves.range r).netof :=
  ⟨by decide, by decide⟩

lemma rangesListed_halves : RangesListed halves [3, 4] where
  listed := by decide
  ascending := by
    intro net hnet
    obtain rfl | rfl : net = 1 ∨ net = 2 := by simpa [halves] using hnet
    · exact ⟨by decide, by decide, by decide⟩
    · exact ⟨by decide, by decide, by decide⟩
  inside := by decide

/-- In the other order both halves pass. -/
theorem checkRanges_exact_halves :
    (∃ e, unameitInetCheckRanges (fun _ _ _ _ => none) unreserved halves [2, 1] [3, 4] = .error e ∧
        e.isRangeRule) ↔
      ∃ r ∈ [3, 4], RangesFaulty unreserved halves (halves.range r).netof := by
  refine (checkRanges_exact_iff _ unreserved halves [2, 1] [3, 4] rangesListed_halves
    ⟨by decide, fun o => by simp [halves, or_comm]⟩).2 (.inr (.inr ?_))
  refine iff_of_false (by decide) ?_
  rintro ⟨net, next, hinfix, last, hlast, first, hfirst, hle⟩
  obtain ⟨rfl, rfl⟩ : net = 2 ∧ next = 1 := by simpa using hinfix.eq_of_length rfl
  cases hlast
  cases hfirst
  exact absurd hle (by decide)

end NetCheck
end Unameit
