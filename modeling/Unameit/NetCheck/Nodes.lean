import Unameit.NetCheck.Basic
import Unameit.Lib.Loops

/-!
# NetCheck.Nodes — what the check of nodes finds

The ranges of a net are found by a sweep over the sorted addresses.  It stops at each address for
the first range that does not end before it (`nextRange`).  If the range was fetched for this very
address, the node is compared with it even if the address lies before the range.  Addresses of nets
that were visited earlier take part in the sweep, and the last address of a net counts as reserved
if the first one is.
-/

namespace Unameit
namespace NetCheck

open Option List

variable {o' r n : DbObject} {a : CString} {table : List (CString × DbObject)}
  {nodes done : List DbObject}

variable (info : Info) (db : Db)

/-! ## The rules -/

/-- The owners of an item, as far as there are only nodes in between. -/
inductive OwnedBy (item : DbObject) : DbObject → Prop
  | owner {o : DbObject} : db.owner item = some o → OwnedBy item o
  | next {o o' : DbObject} : OwnedBy item o → info.hasNodeAddress (db.cls o) = true →
      db.owner o = some o' → OwnedBy item o'

def Labelled (range : DbObject) (cname : CString) : Prop :=
  (db.range range).rangeType = .static ∧
    ∃ label ∈ (db.range range).rangeDevices, info.cname label = some cname

/-- The range has the class of the node, or the class of one of the nodes that own it. -/
def Admits (range node : DbObject) : Prop :=
  Labelled info db range (db.cls node) ∨
    ∃ o, OwnedBy info db node o ∧ info.hasNodeAddress (db.cls o) = true ∧
      Labelled info db range (db.cls o)

/-- What the code asks instead: the class of the first owner that is not a node will do as well. -/
def Accepts (range node : DbObject) : Prop :=
  Labelled info db range (db.cls node) ∨
    ∃ o, OwnedBy info db node o ∧ Labelled info db range (db.cls o)

def InRange (range : DbObject) (address : CString) : Prop :=
  (db.range range).rangeStart ≤ address ∧ address ≤ (db.range range).rangeEnd

/-- The node lies in a range of its net that does not admit it. -/
def Misplaced (node : DbObject) : Prop :=
  ∃ r ∈ db.netRanges (db.node node).netof, InRange db r (db.node node).address ∧
    ¬ Admits info db r node

/-- The node lies in a range of its net that the code finds not to admit it. -/
def Rejected (node : DbObject) : Prop :=
  ∃ r ∈ db.netRanges (db.node node).netof, InRange db r (db.node node).address ∧
    ¬ Accepts info db r node

/-- The node breaks one of the rules. -/
def NodeFaulty (node : DbObject) : Prop :=
  (db.net (db.node node).netof).Subnetted ∨
    (info.nodeZero = .reserved ∧
      (db.node node).address = (db.net (db.node node).netof).netStart) ∨
    (info.lastNode = .reserved ∧
      (db.node node).address = (db.net (db.node node).netof).netEnd) ∨
    Misplaced info db node

/-- The ranges of a net do not overlap and are listed in ascending order. -/
structure RangesApart (net : DbObject) : Prop where
  proper : ∀ r ∈ db.netRanges net, (db.range r).rangeStart ≤ (db.range r).rangeEnd
  apart : (db.netRanges net).Pairwise fun r r' => (db.range r).rangeEnd < (db.range r').rangeStart

/-! ## Owners -/

variable {info db} {item o node range net : DbObject} {ok : List CString} {fuel : ℕ}

lemma OwnedBy.of_owner (h : db.owner item = some o) (hnode : info.hasNodeAddress (db.cls o) = true)
    (ho : OwnedBy info db o o') : OwnedBy info db item o' := by
  induction ho with
  | owner ho' => exact (OwnedBy.owner h).next hnode ho'
  | next _ hn ho' ih => exact ih.next hn ho'

lemma OwnedBy.cases_owner (h : OwnedBy info db item o') :
    ∃ o, db.owner item = some o ∧
      (o' = o ∨ info.hasNodeAddress (db.cls o) = true ∧ OwnedBy info db o o') := by
  induction h with
  | owner h => exact ⟨_, h, .inl rfl⟩
  | next _ hnode ho' ih =>
    obtain ⟨o, ho, rfl | ⟨hn, howned⟩⟩ := ih
    · exact ⟨_, ho, .inr ⟨hnode, OwnedBy.owner ho'⟩⟩
    · exact ⟨o, ho, .inr ⟨hn, howned.next hnode ho'⟩⟩

lemma ownerAllowed_iff (hfuel : db.depth item < fuel) :
    ownerAllowed info db ok fuel item = true ↔
      db.cls item ∈ ok ∨ ∃ o, OwnedBy info db item o ∧ db.cls o ∈ ok := by
  induction fuel generalizing item with
  | zero => omega
  | succ fuel ih =>
    simp only [ownerAllowed]
    by_cases hcls : db.cls item ∈ ok
    · simp [hcls]
    rw [if_neg hcls, or_iff_right hcls]
    cases howner : db.owner item with
    | none =>
      refine iff_of_false (by simp) ?_
      rintro ⟨o, ho, -⟩
      obtain ⟨o', ho', -⟩ := ho.cases_owner
      rw [howner] at ho'
      cases ho'
    | some o =>
      have hdepth := db.depth_lt howner
      by_cases hnode : info.hasNodeAddress (db.cls o) = true
      · simp only [hnode, if_true]
        rw [ih (by omega)]
        constructor
        · rintro (ho | ⟨o', ho', hmem⟩)
          · exact ⟨o, OwnedBy.owner howner, ho⟩
          · exact ⟨o', OwnedBy.of_owner howner hnode ho', hmem⟩
        · rintro ⟨o', ho', hmem⟩
          obtain ⟨o'', ho'', h⟩ := ho'.cases_owner
          obtain rfl : o = o'' := some.inj (howner.symm.trans ho'')
          rcases h with rfl | ⟨-, howned⟩
          · exact .inl hmem
          · exact .inr ⟨o', howned, hmem⟩
      · simp only [hnode, Bool.false_eq_true, if_false, decide_eq_true_eq]
        constructor
        · exact fun hmem => ⟨o, OwnedBy.owner howner, hmem⟩
        · rintro ⟨o', ho', hmem⟩
          obtain ⟨o'', ho'', h⟩ := ho'.cases_owner
          obtain rfl : o = o'' := some.inj (howner.symm.trans ho'')
          rcases h with rfl | ⟨hn, -⟩
          · exact hmem
          · exact absurd hn hnode

lemma mem_allowedClasses {c : CString} :
    c ∈ allowedClasses info (db.range range) ↔ Labelled info db range c := by
  unfold allowedClasses Labelled
  cases (db.range range).rangeType with
  | static => simp
  | dynamic => simp

lemma deviceAllowed_iff : deviceAllowed info db range node = true ↔ Accepts info db range node := by
  unfold deviceAllowed Accepts
  rw [ownerAllowed_iff (Nat.lt_succ_self _)]
  simp only [mem_allowedClasses]

lemma Admits.accepts (h : Admits info db range node) : Accepts info db range node := by
  rcases h with h | ⟨o, ho, -, h⟩
  · exact .inl h
  · exact .inr ⟨o, ho, h⟩

lemma Rejected.misplaced (h : Rejected info db node) : Misplaced info db node := by
  obtain ⟨r, hr, hin, haccepts⟩ := h
  exact ⟨r, hr, hin, fun hadmits => haccepts hadmits.accepts⟩

/-! ## The sweep -/

variable (db)

def nextRange (ranges : List DbObject) (address : CString) : Option DbObject :=
  ranges.find? fun r => address ≤ (db.range r).rangeEnd

/-- The sweep over the addresses compares the node at the address with the range: it is the first
range that does not end before the address, and the address lies in it or is the first address for
which the range was fetched. -/
def Compared (ranges : List DbObject) (swept : List CString) (address : CString)
    (range : DbObject) : Prop :=
  nextRange db ranges address = some range ∧
    ((db.range range).rangeStart ≤ address ∨
      ∀ a ∈ swept, a < address → nextRange db ranges a ≠ some range)

variable {db} {ranges rangelist : List DbObject} {address : CString}

lemma fetchRange_none (h : fetchRange db address ranges = none) :
    ∀ r ∈ ranges, (db.range r).rangeEnd < address := by
  induction ranges with
  | nil => simp
  | cons r ranges ih =>
    unfold fetchRange at h
    by_cases hlt : (db.range r).rangeEnd < address
    · rw [if_pos hlt] at h
      exact forall_mem_cons.2 ⟨hlt, ih h⟩
    · rw [if_neg hlt] at h
      cases h

lemma fetchRange_some (h : fetchRange db address ranges = some (r, rangelist)) :
    ∃ skipped, ranges = skipped ++ r :: rangelist ∧
      (∀ r' ∈ skipped, (db.range r').rangeEnd < address) ∧ address ≤ (db.range r).rangeEnd := by
  induction ranges with
  | nil => cases h
  | cons r' ranges ih =>
    unfold fetchRange at h
    by_cases hlt : (db.range r').rangeEnd < address
    · rw [if_pos hlt] at h
      obtain ⟨skipped, rfl, hskipped, hle⟩ := ih h
      exact ⟨r' :: skipped, rfl, forall_mem_cons.2 ⟨hlt, hskipped⟩, hle⟩
    · rw [if_neg hlt] at h
      cases h
      exact ⟨[], rfl, by simp, not_lt.1 hlt⟩

/-- Ranges that end before the address do not matter. -/
theorem nextRange_append {skipped : List DbObject}
    (h : ∀ r ∈ skipped, (db.range r).rangeEnd < address) :
    nextRange db (skipped ++ ranges) address = nextRange db ranges address := by
  unfold nextRange
  rw [find?_append, find?_eq_none.2, none_or]
  intro r hr
  simpa using h r hr

lemma nextRange_cons (h : address ≤ (db.range r).rangeEnd) :
    nextRange db (r :: ranges) address = some r := by
  unfold nextRange
  rw [find?_cons_of_pos]
  simpa using h

lemma nextRange_le (h : nextRange db ranges address = some r) :
    address ≤ (db.range r).rangeEnd := by
  simpa using find?_some h

/-- In ranges that do not overlap, the next range of an address is the one it lies in. -/
theorem nextRange_of_inRange (hr : r ∈ db.netRanges net) (h : RangesApart db net)
    (hin : InRange db r address) : nextRange db (db.netRanges net) address = some r := by
  obtain ⟨front, rest, hl⟩ := append_of_mem hr
  have hpair := h.apart
  rw [hl] at hpair ⊢
  rw [nextRange_append, nextRange_cons hin.2]
  intro r' hr'
  exact ((pairwise_append.1 hpair).2.2 r' hr' r mem_cons_self).trans_le hin.1

/-- A range that ends before the next range of an address ends before the address. -/
theorem lt_of_nextRange {c : DbObject} (h : RangesApart db net) (hc : c ∈ db.netRanges net)
    (hcr : (db.range c).rangeEnd < (db.range r).rangeEnd)
    (hnext : nextRange db (db.netRanges net) address = some r) :
    (db.range c).rangeEnd < address := by
  obtain ⟨-, before, after, hl, hbefore⟩ := find?_eq_some_iff_append.1 hnext
  have hpair := h.apart
  rw [hl] at hc hpair
  rcases mem_append.1 hc with hc | hc
  · simpa using hbefore c hc
  rcases mem_cons.1 hc with rfl | hafter
  · exact absurd hcr (lt_irrefl _)
  · have hlt := (pairwise_cons.1 (pairwise_append.1 hpair).2.1).1 c hafter
    have hle := h.proper c (by rw [hl]; simp [hafter])
    exact absurd (hlt.trans_le hle) hcr.not_gt

variable (db) in
structure Position (net : DbObject) (past : List CString) (range : Option DbObject)
    (rangelist : List DbObject) (rest : List CString) : Prop where
  sorted : (past ++ rest).Pairwise (· < ·)
  suffix : range.toList ++ rangelist <:+ db.netRanges net
  next : ∀ a ∈ rest, nextRange db (db.netRanges net) a =
    nextRange db (range.toList ++ rangelist) a
  unfetched : range = none → past = []
  current : ∀ r ∈ range, (∃ a ∈ past, nextRange db (db.netRanges net) a = some r) ∧
    ∀ a ∈ past, a ≤ (db.range r).rangeEnd

namespace Position

variable {past rest : List CString} {current : Option DbObject}

section

variable (h : Position db net past current rangelist (address :: rest))

include h

lemma lt_of_mem_past (ha : a ∈ past) : a < address :=
  (pairwise_append.1 h.sorted).2.2 a ha address mem_cons_self

lemma lt_of_mem_rest (ha : a ∈ rest) : address < a :=
  (pairwise_cons.1 (pairwise_append.1 h.sorted).2.1).1 a ha

/-- An address before the current range is compared with nothing. -/
theorem skip (happ : RangesApart db net) (hr : current = some r)
    (hlt : address < (db.range r).rangeStart) :
    (∀ r', ¬ Compared db (db.netRanges net) (past ++ address :: rest) address r') ∧
      Position db net (past ++ [address]) current rangelist rest := by
  subst hr
  have hmem : r ∈ db.netRanges net := h.suffix.subset mem_cons_self
  have hle : address ≤ (db.range r).rangeEnd := hlt.le.trans (happ.proper r hmem)
  have hnext : nextRange db (db.netRanges net) address = some r := by
    rw [h.next address mem_cons_self]
    exact nextRange_cons hle
  obtain ⟨⟨a, ha, hfetched⟩, hpast⟩ := h.current r rfl
  refine ⟨?_, ?_⟩
  · rintro r' ⟨hr', hcompared⟩
    obtain rfl : r = r' := some.inj (hnext.symm.trans hr')
    rcases hcompared with hge | hfresh
    · exact absurd hlt (not_lt.2 hge)
    · exact hfresh a (mem_append_left _ ha) (h.lt_of_mem_past ha) hfetched
  · refine ⟨by simpa using h.sorted, h.suffix, fun a ha => h.next a (mem_cons_of_mem _ ha),
      nofun, ?_⟩
    rintro _ ⟨⟩
    refine ⟨⟨a, mem_append_left _ ha, hfetched⟩, fun a' ha' => ?_⟩
    rcases mem_append.1 ha' with ha' | ha'
    · exact hpast a' ha'
    · rw [mem_singleton.1 ha']
      exact hle

lemma finish (hnone : fetchRange db address (current.toList ++ rangelist) = none)
    (ha : a ∈ address :: rest) {swept : List CString} :
    ¬ Compared db (db.netRanges net) swept a r := by
  rintro ⟨hnext, -⟩
  rw [h.next a ha] at hnext
  have hle := nextRange_le hnext
  have hlt := fetchRange_none hnone r (mem_of_find?_eq_some hnext)
  have haddress : address ≤ a := by
    rcases mem_cons.1 ha with rfl | ha
    · exact le_rfl
    · exact (h.lt_of_mem_rest ha).le
  exact absurd (haddress.trans hle) (not_le.2 hlt)

/-- An address for which there is a range that does not end before it is compared with this
range. -/
theorem fetch (happ : RangesApart db net)
    (hskip : ∀ r ∈ current, ¬ address < (db.range r).rangeStart) {rangelist' : List DbObject}
    (hfetch : fetchRange db address (current.toList ++ rangelist) = some (r, rangelist')) :
    (∀ r', Compared db (db.netRanges net) (past ++ address :: rest) address r' ↔ r' = r) ∧
      Position db net (past ++ [address]) (some r) rangelist' rest := by
  obtain ⟨skipped, hl, hskipped, hle⟩ := fetchRange_some hfetch
  have hnext : nextRange db (db.netRanges net) address = some r := by
    rw [h.next address mem_cons_self, hl, nextRange_append hskipped, nextRange_cons hle]
  refine ⟨fun r' => ⟨fun hr' => some.inj (hr'.1.symm.trans hnext), ?_⟩, ?_⟩
  · rintro rfl
    refine ⟨hnext, ?_⟩
    -- the range is the current one, or it has been fetched now
    cases hcur : current with
    | none =>
      refine .inr fun a ha hlt => ?_
      rw [h.unfetched hcur] at ha
      rcases mem_cons.1 ha with rfl | ha
      · exact absurd hlt (lt_irrefl _)
      · exact absurd hlt (h.lt_of_mem_rest ha).not_gt
    | some c =>
      rw [hcur] at hl
      cases skipped with
      | nil =>
        obtain ⟨rfl, -⟩ := cons.inj hl
        exact .inl (not_lt.1 (hskip c hcur))
      | cons c' skipped =>
        obtain ⟨rfl, hl⟩ := cons.inj hl
        refine .inr fun a ha hlt hfetched => ?_
        have hapast : a ∈ past := by
          rcases mem_append.1 ha with ha | ha
          · exact ha
          rcases mem_cons.1 ha with rfl | ha
          · exact absurd hlt (lt_irrefl _)
          · exact absurd hlt (h.lt_of_mem_rest ha).not_gt
        -- an earlier address is not beyond the current range, which ends before the new one
        have hcr := (hskipped c mem_cons_self).trans_le hle
        have hmem : c ∈ db.netRanges net := h.suffix.subset (by rw [hcur]; simp)
        exact absurd ((h.current c hcur).2 a hapast)
          (not_le.2 (lt_of_nextRange happ hmem hcr hfetched))
  · refine ⟨by simpa using h.sorted, ?_, fun a ha => ?_, nofun, ?_⟩
    · have hsuffix := h.suffix
      rw [hl] at hsuffix
      exact (suffix_append skipped _).trans hsuffix
    · rw [h.next a (mem_cons_of_mem _ ha), hl, nextRange_append]
      · rfl
      · exact fun r' hr' => (hskipped r' hr').trans (h.lt_of_mem_rest ha)
    · rintro _ ⟨⟩
      refine ⟨⟨address, by simp, hnext⟩, fun a ha => ?_⟩
      rcases mem_append.1 ha with ha | ha
      · exact (h.lt_of_mem_past ha).le.trans hle
      · rw [mem_singleton.1 ha]
        exact hle

end

end Position

/-- The sweep fails if some node is compared with a range that is found not to admit it. -/
theorem sweepAddresses_error_iff {past rest : List CString} {current : Option DbObject}
    (happ : RangesApart db net) (h : Position db net past current rangelist rest)
    (htable : ∀ a ∈ rest, ∃ n, table.lookup a = some n) :
    (∃ e, sweepAddresses info db table current rangelist rest = .error e) ↔
      ∃ a ∈ rest, ∃ r n, Compared db (db.netRanges net) (past ++ rest) a r ∧
        table.lookup a = some n ∧ ¬ Accepts info db r n := by
  induction rest generalizing past current rangelist with
  | nil => simp [sweepAddresses]
  | cons address rest ih =>
    have hswept : past ++ address :: rest = past ++ [address] ++ rest := by simp
    have htail : ∀ a ∈ rest, ∃ n, table.lookup a = some n :=
      fun a ha => htable a (mem_cons_of_mem _ ha)
    unfold sweepAddresses
    by_cases hskip : (current.any fun r => address < (db.range r).rangeStart) = true
    · rw [if_pos hskip]
      obtain ⟨r, hr, hlt⟩ := (any_eq_true _ _).1 hskip
      obtain ⟨hnone, hpos⟩ := h.skip happ hr (of_decide_eq_true hlt)
      rw [ih hpos htail, hswept]
      constructor
      · rintro ⟨a, ha, hbad⟩
        exact ⟨a, mem_cons_of_mem _ ha, hbad⟩
      · rintro ⟨a, ha, r', n, hcompared, hbad⟩
        rcases mem_cons.1 ha with rfl | ha
        · rw [← hswept] at hcompared
          exact absurd hcompared (hnone r')
        · exact ⟨a, ha, r', n, hcompared, hbad⟩
    rw [if_neg hskip]
    cases hfetch : fetchRange db address (current.toList ++ rangelist) with
    | none =>
      refine iff_of_false (by simp) ?_
      rintro ⟨a, ha, r, n, hcompared, -⟩
      exact h.finish hfetch ha hcompared
    | some fetched =>
      obtain ⟨r, rangelist'⟩ := fetched
      have hnot : ∀ r' ∈ current, ¬ address < (db.range r').rangeStart := by
        intro r' hr' hlt
        exact hskip ((any_eq_true _ _).2 ⟨r', hr', decide_eq_true hlt⟩)
      obtain ⟨hcompared, hpos⟩ := h.fetch happ hnot hfetch
      obtain ⟨n, hn⟩ := htable address mem_cons_self
      simp only [hn]
      by_cases hallowed : deviceAllowed info db r n = true
      · rw [if_pos hallowed, ih hpos htail, hswept]
        constructor
        · rintro ⟨a, ha, hbad⟩
          exact ⟨a, mem_cons_of_mem _ ha, hbad⟩
        · rintro ⟨a, ha, r', n', hcomp, hn', hbad⟩
          rcases mem_cons.1 ha with rfl | ha
          · -- the node at this address has just been admitted
            rw [← hswept, hcompared] at hcomp
            obtain rfl : n = n' := some.inj (hn.symm.trans hn')
            exact absurd (deviceAllowed_iff.1 hallowed) (hcomp ▸ hbad)
          · exact ⟨a, ha, r', n', hcomp, hn', hbad⟩
      · rw [if_neg hallowed]
        refine iff_of_true ⟨_, rfl⟩ ⟨address, mem_cons_self, r, n, (hcompared r).2 rfl, hn, ?_⟩
        exact fun haccepts => hallowed (deviceAllowed_iff.2 haccepts)

/-! ## The table of addresses -/

variable (db) in
abbrev checkedNodes (nodes : List DbObject) (net : DbObject) : List DbObject :=
  nodes.filter fun n => (db.node n).netof = net

variable (db) in
def addressTable (nodes done : List DbObject) : List (CString × DbObject) :=
  ((done.flatMap (checkedNodes db nodes)).map fun n => ((db.node n).address, n)).reverse

lemma mem_addresses : a ∈ addresses table ↔ ∃ n, (a, n) ∈ table := by
  unfold addresses
  simp

lemma lookup_of_mem_addresses (ha : a ∈ addresses table) : ∃ n, table.lookup a = some n := by
  obtain ⟨n, hn⟩ := mem_addresses.1 ha
  cases hlookup : table.lookup a with
  | some n' => exact ⟨n', rfl⟩
  | none =>
    rw [lookup_eq_none_iff] at hlookup
    simpa using hlookup _ hn

lemma pairwise_addresses (table : List (CString × DbObject)) :
    (addresses table).Pairwise (· < ·) := by
  have hsorted := pairwise_insertionSort (· ≤ ·) (table.map Prod.fst).dedup
  have hnodup : ((table.map Prod.fst).dedup.insertionSort (· ≤ ·)).Nodup :=
    (perm_insertionSort _ _).nodup_iff.2 (nodup_dedup _)
  exact (hsorted.and hnodup).imp fun h => lt_of_le_of_ne h.1 h.2

lemma Position.start (net : DbObject) (table : List (CString × DbObject)) :
    Position db net [] none (db.netRanges net) (addresses table) where
  sorted := pairwise_addresses table
  suffix := List.suffix_rfl
  next _ _ := rfl
  unfetched _ := rfl
  current := nofun

lemma lookup_reverse_map {β : Type} {l : List β} {f : β → CString} :
    (l.map fun n => (f n, n)).reverse.lookup a = (l.filter fun n => f n = a).getLast? := by
  induction l with
  | nil => rfl
  | cons n l ih =>
    rw [map_cons, reverse_cons, lookup_append, ih, filter_cons]
    by_cases h : f n = a
    · rw [if_pos (decide_eq_true h), getLast?_cons, h]
      cases (l.filter fun n => f n = a).getLast? with
      | none => simp
      | some m => simp
    · have hne : (a == f n) = false := by simpa using fun heq => h heq.symm
      rw [if_neg (by simpa using h), lookup_cons, hne]
      simp

/-- The node that the table has for an address is the last one with this address. -/
theorem lookup_addressTable :
    (addressTable db nodes done).lookup a =
      ((done.flatMap (checkedNodes db nodes)).filter fun n => (db.node n).address = a).getLast? :=
  lookup_reverse_map

variable (db) in
/-- No later node of the same net has the same address. -/
def Kept (nodes : List DbObject) (n : DbObject) : Prop :=
  ((checkedNodes db nodes (db.node n).netof).filter
    fun n' => (db.node n').address = (db.node n).address).getLast? = some n

lemma lookup_of_kept (h : Kept db nodes n) :
    (addressTable db nodes (done ++ [(db.node n).netof])).lookup (db.node n).address = some n := by
  rw [lookup_addressTable, flatMap_append, filter_append, getLast?_append,
    flatMap_singleton, show _ = some n from h]
  rfl

lemma kept_of_lookup (hdone : (db.node n).netof ∉ done)
    (h : (addressTable db nodes (done ++ [(db.node n).netof])).lookup a = some n) :
    n ∈ nodes ∧ (db.node n).address = a ∧ Kept db nodes n := by
  rw [lookup_addressTable, flatMap_append, filter_append, getLast?_append,
    flatMap_singleton] at h
  rcases or_eq_some_iff.1 h with hlast | ⟨-, hlast⟩
  · have hmem := mem_filter.1 (mem_of_getLast? hlast)
    have haddress : (db.node n).address = a := by simpa using hmem.2
    exact ⟨(mem_filter.1 hmem.1).1, haddress, by rw [Kept, haddress]; exact hlast⟩
  -- the nodes of other nets have other parents
  · have hmem := (mem_filter.1 (mem_of_getLast? hlast)).1
    obtain ⟨net, hnet, hn⟩ := mem_flatMap.1 hmem
    have heq : (db.node n).netof = net := by simpa using (mem_filter.1 hn).2
    exact absurd (heq ▸ hnet) hdone

/-! ## One net -/

variable (info db)

/-- The node has an address that the code takes for reserved. -/
def TakenForReserved (net node : DbObject) : Prop :=
  info.nodeZero = .reserved ∧ ((db.node node).address = (db.net net).netStart ∨
    (db.node node).address = (db.net net).netEnd)

/-- The sweep through the ranges of the net compares the node at the address with the range, which
is found not to admit it.  The nets visited so far are `visited`. -/
def SweepRejects (nodes visited : List DbObject) (net : DbObject) (a : CString)
    (r n : DbObject) : Prop :=
  Compared db (db.netRanges net) (addresses (addressTable db nodes visited)) a r ∧
    (addressTable db nodes visited).lookup a = some n ∧ ¬ Accepts info db r n

def NodesBad (nodes done : List DbObject) (net : DbObject) : Prop :=
  (db.net net).Subnetted ∨ (∃ n ∈ checkedNodes db nodes net, TakenForReserved info db net n) ∨
    ∃ a r n, SweepRejects info db nodes (done ++ [net]) net a r n

variable {info db} {nodes done order : List DbObject}

lemma checkNode_ok (h : ¬ TakenForReserved info db net n) :
    checkNode info db net table n = .ok (((db.node n).address, n) :: table) := by
  unfold checkNode
  rw [if_neg fun hzero => h ⟨hzero.1, .inl hzero.2⟩, if_neg fun hend => h ⟨hend.1, .inr hend.2⟩]

lemma checkNode_error (h : TakenForReserved info db net n) :
    ∃ e, checkNode info db net table n = .error e := by
  obtain ⟨hres, haddress⟩ := h
  unfold checkNode
  by_cases hzero : (db.node n).address = (db.net net).netStart
  · exact ⟨_, if_pos ⟨hres, hzero⟩⟩
  · rw [if_neg fun h => hzero h.2]
    exact ⟨_, if_pos ⟨hres, haddress.resolve_left hzero⟩⟩

lemma checkNodesOf_spec (info : Info) (nodes done : List DbObject) (happ : RangesApart db net) :
    ¬ NodesBad info db nodes done net ∧
        checkNodesOf info db nodes (addressTable db nodes done) net =
          .ok (addressTable db nodes (done ++ [net])) ∨
      NodesBad info db nodes done net ∧
        ∃ e, checkNodesOf info db nodes (addressTable db nodes done) net = .error e := by
  unfold checkNodesOf
  by_cases hsub : (db.net net).Subnetted
  · simp only [if_pos hsub]
    exact .inr ⟨.inl hsub, _, rfl⟩
  simp only [if_neg hsub]
  rcases foldlM_after (checkNode info db net) (checkedNodes db nodes net)
    (fun l => (l.map fun n => ((db.node n).address, n)).reverse ++ addressTable db nodes done)
    (TakenForReserved info db net) (fun _ => True)
    (fun l n rest _ hn => by simpa using checkNode_ok hn)
    (fun l n rest _ hn => by simpa using checkNode_error hn)
    with ⟨hall, hok⟩ | ⟨hex, e, -, he⟩
  · have hend : ((checkedNodes db nodes net).map fun n => ((db.node n).address, n)).reverse ++
        addressTable db nodes done = addressTable db nodes (done ++ [net]) := by
      simp [addressTable]
    rw [hend] at hok
    change (checkedNodes db nodes net).foldlM (checkNode info db net)
      (addressTable db nodes done) = _ at hok
    rw [hok]
    have hsweep : (∃ e, sweepAddresses info db (addressTable db nodes (done ++ [net])) none
          (db.netRanges net) (addresses (addressTable db nodes (done ++ [net]))) = .error e) ↔ _ :=
      sweepAddresses_error_iff happ (Position.start net _) fun a ha => lookup_of_mem_addresses ha
    cases hresult : sweepAddresses info db (addressTable db nodes (done ++ [net])) none
        (db.netRanges net) (addresses (addressTable db nodes (done ++ [net]))) with
    | error e =>
      obtain ⟨a, -, r, n, hrejects⟩ := hsweep.1 ⟨e, hresult⟩
      exact .inr ⟨.inr (.inr ⟨a, r, n, hrejects⟩), e, by simp [bind, Except.bind, hresult]⟩
    | ok u =>
      refine .inl ⟨?_, by simp [bind, Except.bind, hresult, pure, Except.pure]⟩
      rintro (h | ⟨n, hn, h⟩ | ⟨a, r, n, hrejects⟩)
      · exact hsub h
      · exact hall n hn h
      · have hmem : a ∈ addresses (addressTable db nodes (done ++ [net])) := by
          obtain ⟨front, rest, htable, -⟩ := lookup_eq_some_iff.1 hrejects.2.1
          exact mem_addresses.2 ⟨n, by rw [htable]; simp⟩
        obtain ⟨e, he⟩ := hsweep.2 ⟨a, hmem, r, n, hrejects⟩
        rw [hresult] at he
        cases he
  · refine .inr ⟨.inr (.inl hex), e, ?_⟩
    change (checkedNodes db nodes net).foldlM (checkNode info db net)
      (addressTable db nodes done) = _ at he
    rw [he]
    rfl

lemma checkNodes_error_iff (happ : ∀ net ∈ order, RangesApart db net) :
    (∃ e, unameitInetCheckNodes info db order nodes = .error e) ↔
      ∃ done net rest, order = done ++ net :: rest ∧ NodesBad info db nodes done net := by
  have hspec : ∀ done net rest, order = done ++ net :: rest → _ :=
    fun done net rest hord => checkNodesOf_spec info nodes done
      (happ net (by rw [hord]; simp))
  have hloop := foldlM_error_iff_prefix (checkNodesOf info db nodes) order
    (addressTable db nodes) (NodesBad info db nodes)
    (fun done net rest hord hgood =>
      ((hspec done net rest hord).resolve_right fun hbad => hgood hbad.1).2)
    (fun done net rest hord hbad =>
      ((hspec done net rest hord).resolve_left fun hgood => hgood.1 hbad).2)
  rw [← hloop]
  unfold unameitInetCheckNodes
  change _ ↔ ∃ e, order.foldlM (checkNodesOf info db nodes) [] = .error e
  cases order.foldlM (checkNodesOf info db nodes) [] with
  | error e => simp [bind, Except.bind]
  | ok table => simp [bind, Except.bind, pure, Except.pure]

/-! ## All nets -/

variable (info db)

def AtEnd (node : DbObject) : Prop :=
  (db.node node).address = (db.net (db.node node).netof).netEnd

/-- The node breaks a rule, and the check finds this. -/
def NodeCaught (nodes : List DbObject) (node : DbObject) : Prop :=
  (db.net (db.node node).netof).Subnetted ∨
    (info.nodeZero = .reserved ∧
      (db.node node).address = (db.net (db.node node).netof).netStart) ∨
    (info.nodeZero = .reserved ∧ info.lastNode = .reserved ∧ AtEnd db node) ∨
    (Kept db nodes node ∧ Rejected info db node)

/-- The node breaks a rule that the check does not test: it has the last address, and only this one
is reserved, or its address is hidden by another node, or the class of an owner that is not a node
makes up for it. -/
def NodeMissed (nodes : List DbObject) (node : DbObject) : Prop :=
  (info.nodeZero ≠ .reserved ∧ info.lastNode = .reserved ∧ AtEnd db node) ∨
    (Misplaced info db node ∧ ¬ (Kept db nodes node ∧ Rejected info db node))

/-- The check complains about a node that has the last address although this one is not reserved, or
that is compared with a range of another net or with a range that starts after it. -/
def NodesAccused (nodes order : List DbObject) : Prop :=
  (∃ n ∈ nodes, info.nodeZero = .reserved ∧ info.lastNode ≠ .reserved ∧ AtEnd db n) ∨
    ∃ done net rest, order = done ++ net :: rest ∧ ∃ a r n,
      SweepRejects info db nodes (done ++ [net]) net a r n ∧
        ¬ ((db.node n).netof = net ∧ (db.range r).rangeStart ≤ a)

variable {info db}

lemma nodeFaulty_iff (nodes : List DbObject) :
    NodeFaulty info db n ↔ NodeCaught info db nodes n ∨ NodeMissed info db nodes n := by
  constructor
  · rintro (hsub | hzero | ⟨hlast, hend⟩ | hmis)
    · exact .inl (.inl hsub)
    · exact .inl (.inr (.inl hzero))
    · by_cases hzero : info.nodeZero = .reserved
      · exact .inl (.inr (.inr (.inl ⟨hzero, hlast, hend⟩)))
      · exact .inr (.inl ⟨hzero, hlast, hend⟩)
    · by_cases hfound : Kept db nodes n ∧ Rejected info db n
      · exact .inl (.inr (.inr (.inr hfound)))
      · exact .inr (.inr ⟨hmis, hfound⟩)
  · rintro ((hsub | hzero | ⟨-, hlast⟩ | ⟨-, hrej⟩) | ⟨-, hlast⟩ | ⟨hmis, -⟩)
    · exact .inl hsub
    · exact .inr (.inl hzero)
    · exact .inr (.inr (.inl hlast))
    · exact .inr (.inr (.inr hrej.misplaced))
    · exact .inr (.inr (.inl hlast))
    · exact .inr (.inr (.inr hmis))

/-- A rejection in the sweep through the ranges of its own net, within the range, is justified. -/
theorem SweepRejects.caught (hdone : net ∉ done)
    (h : SweepRejects info db nodes (done ++ [net]) net a r n) (hnet : (db.node n).netof = net)
    (hle : (db.range r).rangeStart ≤ a) : n ∈ nodes ∧ NodeCaught info db nodes n := by
  obtain ⟨⟨hnext, -⟩, hlookup, haccepts⟩ := h
  subst hnet
  obtain ⟨hn, rfl, hkept⟩ := kept_of_lookup hdone hlookup
  exact ⟨hn, .inr (.inr (.inr
    ⟨hkept, r, mem_of_find?_eq_some hnext, ⟨hle, nextRange_le hnext⟩, haccepts⟩))⟩

/-- A node in a range of its net that is found not to admit it is rejected in the sweep. -/
theorem Rejected.sweepRejects (happ : RangesApart db (db.node n).netof) (hkept : Kept db nodes n)
    (h : Rejected info db n) (done : List DbObject) :
    ∃ a r, SweepRejects info db nodes (done ++ [(db.node n).netof]) (db.node n).netof a r n := by
  obtain ⟨r, hr, hin, haccepts⟩ := h
  exact ⟨(db.node n).address, r, ⟨nextRange_of_inRange hr happ hin, .inl hin.1⟩,
    lookup_of_kept hkept, haccepts⟩

lemma exists_nodesBad_iff (happ : ∀ net ∈ order, RangesApart db net) (hnodup : order.Nodup)
    (horder : ∀ net, net ∈ order ↔ ∃ n ∈ nodes, (db.node n).netof = net) :
    (∃ done net rest, order = done ++ net :: rest ∧ NodesBad info db nodes done net) ↔
      (∃ n ∈ nodes, NodeCaught info db nodes n) ∨ NodesAccused info db nodes order := by
  constructor
  · rintro ⟨done, net, rest, hord, hbad⟩
    have hnet : net ∈ order := by rw [hord]; simp
    rcases hbad with hsub | ⟨n, hchecked, hres, haddress⟩ | ⟨a, r, n, hrejects⟩
    · obtain ⟨n, hn, rfl⟩ := (horder net).1 hnet
      exact .inl ⟨n, hn, .inl hsub⟩
    · obtain ⟨hn, hnetof⟩ : n ∈ nodes ∧ (db.node n).netof = net := by simpa using hchecked
      subst hnetof
      rcases haddress with hzero | hend
      · exact .inl ⟨n, hn, .inr (.inl ⟨hres, hzero⟩)⟩
      · by_cases hlast : info.lastNode = .reserved
        · exact .inl ⟨n, hn, .inr (.inr (.inl ⟨hres, hlast, hend⟩))⟩
        · exact .inr (.inl ⟨n, hn, hres, hlast, hend⟩)
    · by_cases hown : (db.node n).netof = net ∧ (db.range r).rangeStart ≤ a
      · have hdone : net ∉ done := by
          rw [hord] at hnodup
          exact fun h => (nodup_append.1 hnodup).2.2 net h net mem_cons_self rfl
        exact .inl ⟨n, hrejects.caught hdone hown.1 hown.2⟩
      · exact .inr (.inr ⟨done, net, rest, hord, a, r, n, hrejects, hown⟩)
  · -- every node belongs to a net that is visited
    have hvisit : ∀ n ∈ nodes, ∃ done rest, order = done ++ (db.node n).netof :: rest :=
      fun n hn => append_of_mem ((horder _).2 ⟨n, hn, rfl⟩)
    have hreserved : ∀ n ∈ nodes, TakenForReserved info db (db.node n).netof n →
        ∃ done net rest, order = done ++ net :: rest ∧ NodesBad info db nodes done net := by
      intro n hn hres
      obtain ⟨done, rest, hord⟩ := hvisit n hn
      exact ⟨done, _, rest, hord, .inr (.inl ⟨n, by simpa using hn, hres⟩)⟩
    rintro (⟨n, hn, hsub | hzero | ⟨hres, -, hend⟩ | ⟨hkept, hrej⟩⟩ |
      ⟨n, hn, hres, -, hend⟩ | ⟨done, net, rest, hord, a, r, n, hrejects, -⟩)
    · obtain ⟨done, rest, hord⟩ := hvisit n hn
      exact ⟨done, _, rest, hord, .inl hsub⟩
    · exact hreserved n hn ⟨hzero.1, .inl hzero.2⟩
    · exact hreserved n hn ⟨hres, .inr hend⟩
    · obtain ⟨done, rest, hord⟩ := hvisit n hn
      obtain ⟨a, r, hrejects⟩ :=
        hrej.sweepRejects (happ _ ((horder _).2 ⟨n, hn, rfl⟩)) hkept done
      exact ⟨done, _, rest, hord, .inr (.inr ⟨a, r, n, hrejects⟩)⟩
    · exact hreserved n hn ⟨hres, .inr hend⟩
    · exact ⟨done, net, rest, hord, .inr (.inr ⟨a, r, n, hrejects⟩)⟩

/-- The check of nodes fails exactly when a checked node breaks a rule, if and only if: a node
breaks a rule and the check finds this, or there are nodes that break a rule unnoticed just when the
check complains without a reason. -/
theorem checkNodes_exact_iff (info : Info) (db : Db) (order nodes : List DbObject)
    (happ : ∀ n ∈ nodes, RangesApart db (db.node n).netof)
    (horder : ArrayNames order (nodes.map fun n => (db.node n).netof)) :
    ((∃ e, unameitInetCheckNodes info db order nodes = .error e) ↔
        ∃ n ∈ nodes, NodeFaulty info db n) ↔
      (∃ n ∈ nodes, NodeCaught info db nodes n) ∨
        ((∃ n ∈ nodes, NodeMissed info db nodes n) ↔ NodesAccused info db nodes order) := by
  have hmem : ∀ net, net ∈ order ↔ ∃ n ∈ nodes, (db.node n).netof = net := by
    intro net
    rw [horder.2 net, List.mem_map]
  have hnets : ∀ net ∈ order, RangesApart db net := by
    intro net hnet
    obtain ⟨n, hn, rfl⟩ := (hmem net).1 hnet
    exact happ n hn
  rw [checkNodes_error_iff hnets, exists_nodesBad_iff hnets horder.1 hmem]
  simp only [nodeFaulty_iff nodes, and_or_left, exists_or]
  rw [or_iff_or_iff, iff_comm (a := NodesAccused info db nodes order)]

/-! ## A node before a range -/

def oneRange (address : DbObject → CString) : Db where
  net _ :=
    { netof := none
      netStart := ['0', '0']
      netEnd := ['f', 'f']
      netBits := 0
      netMask := ['0', '0']
      netType := .fixed }
  range _ :=
    { netof := 1
      rangeStart := ['1', '0']
      rangeEnd := ['1', 'f']
      rangeType := .dynamic
      rangeDevices := [] }
  node n := { netof := 1, address := address n }
  cls _ := []
  owner _ := none
  depth _ := 0
  depth_lt := @Db.depth_lt_of_no_owner
  netRanges _ := [3]
  netAnode _ := none
  netAsubnet _ := none

/-- The node lies in the gap before the range, and is rejected because of the range. -/
theorem checkNodes_rejects_gap :
    unameitInetCheckNodes unreserved (oneRange fun _ => ['0', '5']) [1] [2] =
        .error (.einetBadNode 2 3 .rangeDevices) ∧
      ¬ ∃ n ∈ [2], NodeFaulty unreserved (oneRange fun _ => ['0', '5']) n := by
  refine ⟨by decide, ?_⟩
  rintro ⟨n, -, (hkind | hbits) | ⟨hzero, -⟩ | ⟨hlast, -⟩ | ⟨r, hr, hin, -⟩⟩
  · exact hkind rfl
  · exact hbits rfl
  · cases hzero
  · cases hlast
  · exact absurd hin.1 (by decide : ¬ (['1', '0'] : CString) ≤ ['0', '5'])

/-- Of two nodes the one in the range is found. -/
theorem checkNodes_exact_oneRange :
    NodeFaulty unreserved (oneRange fun n => if n = 2 then ['1', '5'] else ['2', '0']) 2 ∧
    ∃ e, unameitInetCheckNodes unreserved
      (oneRange fun n => if n = 2 then ['1', '5'] else ['2', '0']) [1] [2, 4] = .error e := by
  set db := oneRange fun n => if n = 2 then ['1', '5'] else ['2', '0']
  have hcaught : NodeCaught unreserved db [2, 4] 2 := by
    refine .inr (.inr (.inr ⟨rfl, 3, by decide, ⟨by decide, by decide⟩, ?_⟩))
    rintro (⟨hstatic, -⟩ | ⟨o, -, hstatic, -⟩) <;> cases hstatic
  have hapart : RangesApart db 1 :=
    ⟨fun _ _ => (by decide : (['1', '0'] : CString) ≤ ['1', 'f']), List.pairwise_singleton _ _⟩
  have hfaulty := (nodeFaulty_iff [2, 4]).2 (.inl hcaught)
  exact ⟨hfaulty, ((checkNodes_exact_iff unreserved db [1] [2, 4] (fun _ _ => hapart)
    ⟨by decide, fun o => by simp [db, oneRange]⟩).2 (.inl ⟨2, by simp, hcaught⟩)).2
      ⟨2, by simp, hfaulty⟩⟩

end NetCheck
end Unameit
