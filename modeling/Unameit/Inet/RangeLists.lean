import Unameit.Inet.Counts

/-!
# Inet.RangeLists — the ranges of a net, in order

A net block lists the ranges of its nets.  `Inet_Move_Range` looks for the place of a range by its
start address, but its loop steps over the first entry that is not smaller before it stops.  A
range that is smaller than some entry and equal to none therefore lands after a larger one.

The lists have exactly the ranges of the nets in every aligned run, by the books of `Sound`.  They
are in order as long as every range that joins a list fits in: that is the condition
`Op.KeepsOrder` on the operations of a run.
-/

namespace Unameit
namespace Inet

open Option List

variable {nd' : NetData} {c y : DbObject} {fam : Family} {σ : Config}

/-! ## Lists in order -/

def rangeStarts (nd : NetData) (moves : List (InetObjType × DbObject)) : List CString :=
  (moves.filter fun m => m.1 = .range).map fun m => nd.rangeStart m.2

def Ordered (nd : NetData) : Prop :=
  ∀ c, (nd.netRanges c).Pairwise fun y z => nd.rangeStart y ≤ nd.rangeStart z

variable {net : Option DbObject}

section Moves

variable {nd : NetData} {S : InetObjType → Set DbObject} {moves : List (InetObjType × DbObject)}
  {x : DbObject} {type : InetObjType}

lemma rangeStart_congr (h : nd'.info = nd.info) : nd'.rangeStart = nd.rangeStart := by
  unfold NetData.rangeStart
  rw [h]

lemma rangeStarts_congr (h : ∀ m ∈ moves, nd'.rangeStart m.2 = nd.rangeStart m.2) :
    rangeStarts nd' moves = rangeStarts nd moves :=
  map_congr_left fun m hm => h m (mem_of_mem_filter hm)

lemma Ordered.setNetof (h : Ordered nd)
    (hfit : type = .range → ∀ c, net.bind nd.itemBlock = some c →
      FitInOrder (nd.rangeStart '' {y | y ∈ nd.netRanges c}) [nd.rangeStart x]) :
    Ordered (inetSetNetof nd x type net) := by
  intro c
  rw [rangeStart_congr (inetSetNetof_frame nd x type net).2, inetSetNetof_netRanges]
  split
  · rename_i htype
    convert pairwise_rosterMove h (hfit htype) c
  · exact h c

/-- The list that a range joins has one member more. -/
theorem mem_netRanges_setNetof (hL : Ledger nd S) (hL' : Ledger (inetSetNetof nd x .range net) S)
    (hx : x ∈ S .range) (hc : net.bind nd.itemBlock = some c) :
    {y | y ∈ (inetSetNetof nd x .range net).netRanges c} =
      insert x {y | y ∈ nd.netRanges c} := by
  ext y
  show y ∈ (inetSetNetof nd x .range net).netRanges c ↔ y = x ∨ y ∈ nd.netRanges c
  rw [(hL'.ranges c).2, (hL.ranges c).2, inetSetNetof_account, roll_update hx, if_pos hc,
    Set.mem_insert_iff]

/-- Moves keep the lists in order when the ranges fit in one after the other. -/
theorem Ordered.moveAll (h : Ordered nd) (hL : Ledger nd S) (hfin : ∀ type, (S type).Finite)
    (hone : ∀ {type type' x}, x ∈ S type → x ∈ S type' → type' = type)
    (hmoves : ∀ m ∈ moves, m.2 ∈ S m.1) (hfit : ∀ c, net.bind nd.itemBlock = some c →
      FitInOrder (nd.rangeStart '' {y | y ∈ nd.netRanges c}) (rangeStarts nd moves)) :
    Ordered (moveAll nd net moves) := by
  induction moves generalizing nd with
  | nil => exact h
  | cons m moves ih =>
    rcases m with ⟨type, x⟩
    have hx : x ∈ S type := hmoves _ mem_cons_self
    have hframe := inetSetNetof_frame nd x type net
    have hL' := hL.setNetof hfin hx (fun _ => hone hx) net
    have hstarts : rangeStarts (inetSetNetof nd x type net) moves = rangeStarts nd moves := by
      unfold rangeStarts
      rw [rangeStart_congr hframe.2]
    refine ih ?_ hL' (fun m hm => hmoves m (mem_cons_of_mem _ hm)) ?_
    · refine h.setNetof fun htype c hc => ?_
      have hcons := hfit c hc
      rw [rangeStarts, filter_cons_of_pos (by simpa using htype)] at hcons
      exact hcons.head
    · intro c hc
      rw [hframe.1] at hc
      have hcons := hfit c hc
      rw [rangeStart_congr hframe.2, hstarts]
      by_cases htype : type = .range
      · subst htype
        rw [mem_netRanges_setNetof hL hL' hx hc, Set.image_insert_eq]
        exact hcons.2
      · rw [inetSetNetof_netRanges, if_neg htype]
        rw [rangeStarts, filter_cons_of_neg (by simpa using htype)] at hcons
        exact hcons

end Moves

/-! ## Steps -/

def Config.rangeKeys (σ : Config) (c : DbObject) : Set CString :=
  σ.state.net.rangeStart '' σ.counted .range c

/-- Every range that the operation moves to another list is larger than all the ranges there, or
starts where one of them does; the ranges move in the order in which the walk over the tree meets
them. -/
def Op.KeepsOrder (fam : Family) (σ : Config) : Op → Prop
  | .insert o info => ∀ p, inetInfoPrefix fam σ.state.tree o info = .ok p →
      FitInOrder ∅ (rangeStarts σ.state.net
        (joining fam (σ.state.setInfo o (some info)) p info.objType)) ∧
      (info.objType = .range → ∀ n q c, LongestMatch σ.dir ⟨.range, p⟩ n q →
        σ.state.net.itemBlock n = some c →
        FitInOrder (σ.rangeKeys c) [(σ.state.setInfo o (some info)).net.rangeStart o])
  | .delete o _ _ => ∀ e b c, σ.dir o = some e → e.type = .net →
      σ.state.net.itemBlock o = some b → (heir σ.state b o).bind σ.state.net.itemBlock = some c →
      FitInOrder (σ.rangeKeys c) (rangeStarts σ.state.net (departing fam σ.state .net b o))

/-- Only listed ranges count for the order of the lists. -/
theorem Ordered.congr {nd : NetData} (h : Ordered nd) (hranges : nd'.netRanges = nd.netRanges)
    (hstart : ∀ c, ∀ y ∈ nd.netRanges c, nd'.rangeStart y = nd.rangeStart y) : Ordered nd' := by
  intro c
  rw [hranges]
  refine (h c).imp_of_mem ?_
  intro y z hy hz hle
  rw [hstart c y hy, hstart c z hz]
  exact hle

lemma rangeStart_setInfo {st : State} {o : DbObject} {info : Option InetInfo} (hy : y ≠ o) :
    (st.setInfo o info).net.rangeStart y = st.net.rangeStart y := by
  have hinfo : (st.setInfo o info).net.info y = st.net.info y := Function.update_of_ne hy _ _
  unfold NetData.rangeStart
  rw [hinfo]

/-- A list of ranges, as the set of the ranges of its block. -/
theorem Sound.mem_netRanges_iff (h : Sound fam σ.state σ.dir) : y ∈ σ.state.net.netRanges c ↔
      y ∈ roll (σ.dir.ofType .range) σ.state.net.account c :=
  (h.ledger.ranges c).2 y

lemma Sound.rangeKeys_eq (h : Sound fam σ.state σ.dir) {a : BitStream}
    (hc : σ.state.tree.Covers a c) :
    σ.state.net.rangeStart '' {y | y ∈ σ.state.net.netRanges c} = σ.rangeKeys c := by
  have hset : {y | y ∈ σ.state.net.netRanges c} = σ.counted .range c := by
    rw [← h.roll_eq_counted hc]
    ext y
    exact h.mem_netRanges_iff
  rw [Config.rangeKeys, hset]

variable {σ' : Config} {o b : DbObject}

section Insert

variable {info : InetInfo} {p : InetPrefix}

lemma joining_of_ne {type : InetObjType} (htype : type ≠ .net) {st : State} :
    joining fam st p type = [] := by
  unfold joining
  split
  · rfl
  · exact if_neg fun h => htype h.1

section

variable (hs : InsertStep fam σ σ' o info p b net) (h : Sound fam σ.state σ.dir)
  (h' : Sound fam σ'.state σ'.dir)
  (hmoves : joining fam (σ.state.setInfo o (some info)) p info.objType ≠ [])

include hs h h' hmoves

lemma InsertStep.objType_eq : info.objType = .net := by
  rcases exists_mem_of_ne_nil _ hmoves with ⟨m, hm⟩
  rcases hs.enrolled.moved m hm with ⟨q, hq⟩
  exact ((hs.mem_joining_iff h h' hq).1 (mem_map_of_mem hm)).1

lemma InsertStep.block_eq (hc : σ'.state.net.itemBlock o = some c) : b = c := by
  have hnode : info.objType ≠ .node := by
    rw [hs.objType_eq h h' hmoves]
    decide
  rw [hs.enrolled.itemBlock, if_neg hnode, Function.update_self] at hc
  exact some.inj hc

end

lemma InsertStep.found_net (hs : InsertStep fam σ σ' o info p b net)
    (h' : Sound fam σ'.state σ'.dir) (hc : net.bind σ'.state.net.itemBlock = some c) :
    ∃ n q, LongestMatch σ.dir ⟨info.objType, p⟩ n q ∧ σ.state.net.itemBlock n = some c := by
  rcases bind_eq_some_iff.1 hc with ⟨n, hn, hblock⟩
  rcases h'.wf.filing with ⟨r, hfile'⟩
  have hpar := h'.parent hs.dir_self
  rw [hs.enrolled.netof, if_pos rfl, hn] at hpar
  rcases hpar.longestMatch hfile' with ⟨q, hq⟩
  have hno : n ≠ o := hpar.ne_self hfile' hs.dir_self
  refine ⟨n, q,
    { filed := (hs.dir_of_ne hno).symm.trans hq.filed
      above := hq.above
      longest := fun hm hmatch => hq.longest
        ((hs.dir_of_ne (Placed.ne_of_dir hs.unfiled hm)).trans hm) hmatch }, ?_⟩
  rw [hs.enrolled.itemBlock] at hblock
  split at hblock
  · exact hblock
  · rw [Function.update_of_ne hno] at hblock
    exact hblock

section

variable (hs : InsertStep fam σ σ' o info p b net) (h : Sound fam σ.state σ.dir)
  (h' : Sound fam σ'.state σ'.dir)

include hs h h'

/-- When a new net takes over any items, its block had no net, and so no ranges. -/
theorem InsertStep.netRanges_eq_nil
    (hmoves : joining fam (σ.state.setInfo o (some info)) p info.objType ≠ []) :
    σ.state.net.netRanges b = [] := by
  rcases exists_mem_of_ne_nil _ hmoves with ⟨m, hm⟩
  rcases hs.enrolled.moved m hm with ⟨q, hq⟩
  rcases (hs.mem_joining_iff h h' hq).1 (mem_map_of_mem hm) with ⟨htype, hmatch, hlonger⟩
  rw [eq_nil_iff_forall_not_mem]
  intro y hy
  rcases h.account_live (h.mem_netRanges_iff.1 hy).2 with ⟨⟨a, ha⟩, n, _, hn⟩
  rcases h.wf.filing with ⟨r, hfile⟩
  rcases h'.wf.filing with ⟨r', hfile'⟩
  rcases hfile.filed_only ha hn with ⟨k, hk, hkmem, hkbits⟩
  have hbits : k.bits = p.bits :=
    hkbits.symm.trans ((hs.enrolled.bits ha).symm.trans hs.enrolled.bits_block)
  -- The net has the same prefix as the new one.
  have hold : Located σ.state.tree (fun b a => σ.state.tree.Covers a b) n ⟨.net, k⟩ b :=
    ⟨hkmem, hkbits, hn⟩
  have hloc := hs.enrolled.located hold
  have hag : BitStream.Agree (σ'.state.tree.bits b) k.stream p.stream :=
    hfile'.shape.cover.agree_of_mem hloc.mem hs.enrolled.mem
  rw [hs.enrolled.bits_block] at hag
  have hlt := hlonger n k hk ⟨hbits ▸ hmatch.1, fun i hi => ?_⟩
  · omega
  · exact (hag i (hbits ▸ hi)).trans (hmatch.2 i (hbits ▸ hi))

lemma InsertStep.ordered (hkeep : (Op.insert o info).KeepsOrder fam σ)
    (hord : Ordered σ.state.net) : Ordered σ'.state.net := by
  rcases hs.enrolled.opened (h.setInfo o _) hs.unfiled with ⟨nd, hopen, hblock, heq⟩
  rw [← hs.dir] at hopen
  have hfin := Directory.ofType_finite h'.finite
  have hmoves := hs.enrolled.moved_filed hs.unfiled
  rw [← hs.dir] at hmoves
  rcases hkeep p hs.accepted with ⟨hmovesfit, hselffit⟩
  have hlisted : ∀ {c y}, y ∈ σ.state.net.netRanges c → y ≠ o := by
    rintro c y hy rfl
    rcases (h.mem_netRanges_iff.1 hy).1 with ⟨q, hq⟩
    rw [hs.unfiled] at hq
    cases hq
  have hstart : ∀ {y}, y ≠ o → nd.rangeStart y = σ.state.net.rangeStart y := by
    intro y hy
    rw [rangeStart_congr hopen.info]
    exact rangeStart_setInfo hy
  have hbase : Ordered nd :=
    hord.congr hopen.netRanges fun c y hy => hstart (hlisted hy)
  have hmoved : Ordered (moveAll nd (some o)
      (joining fam (σ.state.setInfo o (some info)) p info.objType)) := by
    refine hbase.moveAll hopen.ledger hfin Directory.ofType_unique hmoves fun c hc => ?_
    rw [rangeStarts_congr fun m hm => ?_]
    · by_cases hnil : joining fam (σ.state.setInfo o (some info)) p info.objType = []
      · rw [hnil]
        trivial
      · have hb : b = c := by
          rw [hblock] at hc
          exact hs.block_eq h h' hnil hc
        rw [hopen.netRanges, ← hb]
        show FitInOrder (nd.rangeStart '' {y | y ∈ σ.state.net.netRanges b}) _
        rw [hs.netRanges_eq_nil h h' hnil]
        simpa using hmovesfit
    · rcases hs.enrolled.moved m hm with ⟨q, hq⟩
      exact hstart (Placed.ne_of_dir hs.unfiled hq)
  rw [heq]
  refine hmoved.setNetof fun (htype : info.objType = .range) c hc => ?_
  rw [joining_of_ne (by rw [htype]; decide)] at hc ⊢
  show FitInOrder (nd.rangeStart '' {y | y ∈ nd.netRanges c}) [nd.rangeStart o]
  have hc' : net.bind σ'.state.net.itemBlock = some c := by
    rw [← hblock]
    exact hc
  rcases hs.found_net h' hc' with ⟨n, q, hmatch, hn⟩
  have hfit := hselffit htype n q c (htype ▸ hmatch) hn
  rcases h.block hmatch.filed (by simp) with ⟨d, hd, hloc⟩
  obtain rfl : d = c := some.inj (hd.symm.trans hn)
  rw [← h.rangeKeys_eq hloc.mem] at hfit
  rw [rangeStart_congr hopen.info, hopen.netRanges]
  have himage : (σ.state.setInfo o (some info)).net.rangeStart '' {y | y ∈ σ.state.net.netRanges d} =
      σ.state.net.rangeStart '' {y | y ∈ σ.state.net.netRanges d} :=
    Set.image_congr fun y hy => rangeStart_setInfo (hlisted hy)
  show FitInOrder ((σ.state.setInfo o (some info)).net.rangeStart ''
    {y | y ∈ σ.state.net.netRanges d}) _
  rw [himage]
  exact hfit

end

end Insert

section Delete

variable {now : ℕ} {attributes : Option InetInfo} {e : Entry}

section

variable (hs : DeleteStep fam σ σ' o now attributes e b) (h : Sound fam σ.state σ.dir)

include hs h

/-- The block that receives the items of a net that goes away is part of the tree. -/
theorem DeleteStep.heir_live (hc : (heir σ.state b o).bind σ.state.net.itemBlock = some c) :
    ∃ a, σ.state.tree.Covers a c := by
  rcases bind_eq_some_iff.1 hc with ⟨n, hn, hblock⟩
  rcases h.wf.filing with ⟨r, hfile⟩
  obtain ⟨q, hq⟩ : ∃ q, σ.dir n = some ⟨.net, q⟩ := by
    unfold heir at hn
    split at hn
    · have hpar := h.parent hs.filed
      rw [hn] at hpar
      rcases hpar.longestMatch hfile with ⟨q, hmatch⟩
      exact ⟨q, hmatch.filed⟩
    · rename_i f l hl
      cases hn
      have hf : n ∈ σ.state.tree.items .net b := by
        refine mem_of_mem_erase (b := o) ?_
        rw [hl]
        exact mem_cons_self
      rcases hfile.filed_only hs.withdrawn.located.mem hf with ⟨q, hq, _⟩
      exact ⟨q, hq⟩
  rcases h.block hq (by simp) with ⟨d, hd, hloc⟩
  obtain rfl : d = c := some.inj (hd.symm.trans hblock)
  exact ⟨_, hloc.mem⟩

lemma DeleteStep.itemBlock_eq (htype : e.type ≠ .node) : σ.state.net.itemBlock o = some b := by
  rcases h.wf.filing with ⟨r, hfile⟩
  rcases h.block hs.filed htype with ⟨c, hc, hloc⟩
  have hown := hs.withdrawn.located
  rw [hc, hfile.shape.cover.unique hloc.mem hown.mem (hloc.bits.trans hown.bits.symm)]

lemma DeleteStep.ordered_range (h' : Sound fam σ'.state σ'.dir) (htype : e.type = .range)
    (hord : Ordered σ.state.net) : Ordered σ'.state.net := by
  rcases hs.closed h h' rfl with ⟨nd, _, _, hranges, hinfo, heq⟩
  have hnil : departing fam (σ.state.setInfo o attributes) e.type b o = [] :=
    if_neg (by rw [htype]; decide)
  rw [hnil] at hranges
  have hstart : σ'.state.net.rangeStart = (σ.state.setInfo o attributes).net.rangeStart := by
    refine rangeStart_congr ?_
    rw [heq, (inetSetNetof_frame _ _ _ _).2]
    exact hinfo
  intro c
  have hsub : (σ'.state.net.netRanges c).Sublist (σ.state.net.netRanges c) := by
    rw [heq, inetSetNetof_netRanges, if_pos htype, hranges, bind_none]
    by_cases hnone : nd.account o = none
    · rw [hnone]
      exact List.Sublist.refl _
    · rw [rosterMove_of_ne hnone (by simp)]
      split
      · exact erase_sublist
      · exact List.Sublist.refl _
  refine ((hord c).sublist hsub).imp_of_mem ?_
  have hother : ∀ {y}, y ∈ σ'.state.net.netRanges c → y ≠ o := by
    rintro y hy rfl
    rcases (h'.mem_netRanges_iff.1 hy).1 with ⟨q, hq⟩
    rw [hs.dir_self] at hq
    cases hq
  intro y z hy hz hle
  rw [hstart, rangeStart_setInfo (hother hy), rangeStart_setInfo (hother hz)]
  exact hle

lemma DeleteStep.ordered (h' : Sound fam σ'.state σ'.dir)
    (hkeep : (Op.delete o now attributes).KeepsOrder fam σ) (hord : Ordered σ.state.net) :
    Ordered σ'.state.net := by
  by_cases htype : e.type = .range
  · exact hs.ordered_range h h' htype hord
  have hlisted : ∀ {c y}, y ∈ σ.state.net.netRanges c → y ≠ o := by
    rintro c y hy rfl
    rcases (h.mem_netRanges_iff.1 hy).1 with ⟨q, hq⟩
    obtain rfl := some.inj (hs.filed.symm.trans hq)
    exact htype rfl
  have hfin := Directory.ofType_finite h.finite
  have hmoves := fun m hm => (hs.departing_filed h h' m hm).2
  have hbase : Ordered (σ.state.setInfo o attributes).net :=
    hord.congr rfl fun c y hy => rangeStart_setInfo (hlisted hy)
  have hmoved : Ordered (moveAll (σ.state.setInfo o attributes).net
      (heir (σ.state.setInfo o attributes) b o)
      (departing fam (σ.state.setInfo o attributes) e.type b o)) := by
    refine hbase.moveAll (h.setInfo o attributes).ledger hfin Directory.ofType_unique hmoves
      fun c hc => ?_
    by_cases hnet : e.type = .net
    · have hfit := hkeep e b c hs.filed hnet
        (hs.itemBlock_eq h (by rw [hnet]; decide)) hc
      rcases hs.heir_live h hc with ⟨a, ha⟩
      rw [← h.rangeKeys_eq ha] at hfit
      rw [rangeStarts_congr fun m hm => rangeStart_setInfo (hs.departing_filed h h' m hm).1, hnet]
      have himage : (σ.state.setInfo o attributes).net.rangeStart ''
            {y | y ∈ σ.state.net.netRanges c} =
          σ.state.net.rangeStart '' {y | y ∈ σ.state.net.netRanges c} :=
        Set.image_congr fun y hy => rangeStart_setInfo (hlisted hy)
      show FitInOrder ((σ.state.setInfo o attributes).net.rangeStart ''
        {y | y ∈ σ.state.net.netRanges c}) _
      rw [himage]
      exact hfit
    · rw [departing, if_neg hnet]
      trivial
  rcases hs.closed h h' rfl with ⟨nd, _, _, hranges, hinfo, heq⟩
  have hnd : Ordered nd := by
    refine hmoved.congr hranges fun c y _ => ?_
    rw [rangeStart_congr hinfo, rangeStart_congr (moveAll_frame _ _ _).2]
  rw [heq]
  exact hnd.setNetof fun _ c hc => by cases hc

end

end Delete

/-! ## Runs -/

lemma strcmp_le_zero_iff (s t : CString) : strcmp s t ≤ 0 ↔ s ≤ t := by
  rw [← not_lt, ← not_lt, ← strcmp_pos_iff]

/-- In every run whose ranges fit in, the list of every block has exactly the ranges of its nets,
each once and in the order of their start addresses. -/
theorem rangesOrdered_of_run {fam : Family} {σ : Config}
    (hrun : Run fam (fun σ op => op.Aligned fam σ ∧ op.KeepsOrder fam σ) Config.empty σ)
    {a : BitStream} {b : DbObject} (hb : σ.state.tree.Covers a b) :
    (∀ x, x ∈ σ.state.net.netRanges b ↔ x ∈ σ.counted .range b) ∧
      (σ.state.net.netRanges b).Nodup ∧
      (σ.state.net.netRanges b).Pairwise fun y z =>
        strcmp (σ.state.net.rangeStart y) (σ.state.net.rangeStart z) ≤ 0 := by
  have hreached := hrun.reached (I := fun σ => Ordered σ.state.net) (fun hok => hok.1)
    (fun hstep _ => by
      rcases (Valid.first hstep).2 with ⟨o, info, p, _, rfl⟩
      exact fun _ => List.Pairwise.nil)
    (fun {σ op σ'} hvalid hord hok hstep => by
      rcases step_cases hvalid.sound hok.1 hstep with
        ⟨hsound, ⟨o, info, p, b, net, rfl, hs⟩ | ⟨o, now, attributes, e, b, rfl, hs⟩⟩
      · exact hs.ordered hvalid.sound hsound hok.2 hord
      · exact hs.ordered hvalid.sound hsound hok.2 hord)
  rcases hreached with rfl | ⟨hvalid, hord⟩
  · exact absurd hb Config.not_covers_empty
  · refine ⟨fun x => ?_, (hvalid.sound.ledger.ranges b).1, ?_⟩
    · rw [hvalid.sound.mem_netRanges_iff, hvalid.sound.roll_eq_counted hb]
    · simp only [strcmp_le_zero_iff]
      exact hord b

/-- Range 2 is larger than range 1 and is listed behind it. -/
theorem rangesOrdered_of_run_ranges : ∃ τ σ,
    step octetFamily octetStart (.insert 1 (.range ['1', '0'] ['1', 'f'] [] [])) = some τ ∧
    step octetFamily τ (.insert 2 (.range ['2', '0'] ['2', 'f'] [] [])) = some σ ∧
    σ.state.net.netRanges 0 = [1, 2] ∧ (∀ x ∈ [1, 2], x ∈ σ.counted .range 0) ∧
    strcmp (σ.state.net.rangeStart 1) (σ.state.net.rangeStart 2) ≤ 0 := by
  obtain ⟨τ, σ, hτ, hσ, hquiet, hone, hroot, hlist⟩ : ∃ τ σ,
      step octetFamily octetStart (.insert 1 (.range ['1', '0'] ['1', 'f'] [] [])) = some τ ∧
      step octetFamily τ (.insert 2 (.range ['2', '0'] ['2', 'f'] [] [])) = some σ ∧
      (Op.insert 2 (.range ['2', '0'] ['2', 'f'] [] [])).quiet octetFamily τ ∧
      τ.state.net.rangeStart 1 = ['1', '0'] ∧
      σ.state.tree.rootBlock = some 0 ∧ σ.state.net.netRanges 0 = [1, 2] :=
    ⟨_, _, rfl, rfl, rfl, rfl, rfl, rfl⟩
  -- a range fits in when all ranges that are filed start below it
  have hkeep : ∀ {υ o s s'}, (∀ y q, υ.dir y = some ⟨.range, q⟩ → υ.state.net.rangeStart y < s) →
      (Op.insert o (.range s s' [] [])).KeepsOrder octetFamily υ := by
    intro υ o s s' hlow p _
    have htype : (InetInfo.range s s' [] []).objType ≠ .net := by simp [InetInfo.objType]
    refine ⟨by rw [joining_of_ne htype]; trivial, fun _ n q c _ _ => ⟨.inl ?_, trivial⟩⟩
    rintro _ ⟨y, ⟨⟨k, hk⟩, _⟩, rfl⟩
    simpa [State.setInfo, NetData.rangeStart] using hlow y k hk
  have hfirst : ∀ y q, octetStart.dir y = some ⟨.range, q⟩ →
      octetStart.state.net.rangeStart y < ['1', '0'] := fun y q hy => by
    cases (octetStart_dir hy).2
  have hsecond : ∀ y q, τ.dir y = some ⟨.range, q⟩ → τ.state.net.rangeStart y < ['2', '0'] := by
    intro y q hy
    by_cases hy1 : y = 1
    · rw [hy1, hone]
      decide
    · rcases step_insert hτ with ⟨p, -, -, hτ⟩
      rw [hτ] at hy
      cases (octetStart_dir ((Function.update_of_ne hy1 _ _).symm.trans hy)).2
  have h := rangesOrdered_of_run (((Relation.ReflTransGen.single
    ⟨.insert 0 (.net ['0', '0'] 0 [] []), ⟨Op.aligned_of_quiet rfl, fun _ _ => ⟨trivial, fun h => by cases h⟩⟩,
      rfl⟩).tail ⟨_, ⟨Op.aligned_of_quiet rfl, hkeep hfirst⟩, hτ⟩).tail
        ⟨_, ⟨Op.aligned_of_quiet hquiet, hkeep hsecond⟩, hσ⟩)
    (.root hroot (a := fun _ => false))
  rw [hlist, pairwise_pair] at h
  exact ⟨τ, σ, hτ, hσ, hlist, fun x hx => (h.1 x).1 hx, h.2.2⟩

/-- Two ranges of the universe net, the second one smaller than the first: they are listed in the
order in which they were inserted. -/
theorem ranges_out_of_order : ∃ σ r, runOps octetFamily Config.empty
      [.insert 0 (.net ['0', '0'] 0 [] []), .insert 1 (.range ['2', '0'] ['2', 'f'] [] []),
        .insert 2 (.range ['1', '0'] ['1', 'f'] [] [])] = some σ ∧
    σ.state.tree.rootBlock = some r ∧ σ.state.net.netRanges r = [1, 2] ∧
    σ.state.net.rangeStart 1 = ['2', '0'] ∧ σ.state.net.rangeStart 2 = ['1', '0'] ∧
    ¬ (σ.state.net.netRanges r).Pairwise fun y z =>
      strcmp (σ.state.net.rangeStart y) (σ.state.net.rangeStart z) ≤ 0 := by
  have hrun : (runOps octetFamily Config.empty
      [.insert 0 (.net ['0', '0'] 0 [] []), .insert 1 (.range ['2', '0'] ['2', 'f'] [] []),
        .insert 2 (.range ['1', '0'] ['1', 'f'] [] [])]).map (fun σ =>
          (σ.state.tree.rootBlock, σ.state.net.netRanges 0, σ.state.net.rangeStart 1,
            σ.state.net.rangeStart 2)) =
      some (some 0, [1, 2], ['2', '0'], ['1', '0']) := by decide +kernel
  rcases map_eq_some_iff.1 hrun with ⟨σ, hσ, hfields⟩
  simp only [Prod.mk.injEq] at hfields
  rcases hfields with ⟨hroot, hlist, hone, htwo⟩
  refine ⟨σ, 0, hσ, hroot, hlist, hone, htwo, fun hord => ?_⟩
  rw [hlist, pairwise_pair, hone, htwo] at hord
  exact absurd hord (by decide)

end Inet
end Unameit
