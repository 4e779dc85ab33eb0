import Unameit.Inet.Moves
import Unameit.Inet.Stamps

/-!
# Inet.Counts — how many items a net has, and one of them

A net block counts the nodes and the subnets of its nets, and names one of each.  The counts are
exact in every aligned run, by the books of `Sound`.  The node or subnet that is named is only
replaced when the count goes to zero or leaves it, so that it is right as long as it does not leave
the net while others stay: that is the condition `Op.KeepsAny` on the operations of a run.
-/

namespace Unameit
namespace Inet

open Directory

/-! ## Items of a net -/

/-- `Inet_Net_ItemsCmd`: a node or a subnet of the net, if it has any, or all of its ranges. -/
def inetNetItemsCmd (fam : Family) (st : State) (type : InetObjType) (net : DbObject) :
    Except Failure (List DbObject) :=
  match st.net.itemBlock net with
  | none => .error (.einetnotnode net fam.fname)
  | some block =>
    match type with
    | .node => .ok (st.net.netAny .node block).toList
    | .net => .ok (st.net.netAny .net block).toList
    | .range => .ok (st.net.netRanges block)

def Config.counted (σ : Config) (type : InetObjType) (c : DbObject) : Set DbObject :=
  {x | x ∈ σ.dir.ofType type ∧ ∃ n ∈ σ.state.tree.items .net c, σ.state.net.netof x = some n}

def Represented (nd : NetData) (S : InetObjType → Set DbObject) : Prop :=
  ∀ type, type ≠ .range → ∀ c, (nd.tally type).Vouched (S type) nd.account c

/-- The operation does not take the representative of a net block away while other items stay.
A new net takes over the representative only together with all others that are counted with it; an
item that is the representative of its net goes away only as the last one, and is not replaced by
subnets of its own. -/
def Op.KeepsAny (fam : Family) (σ : Config) : Op → Prop
  | .insert o info => ∀ p, inetInfoPrefix fam σ.state.tree o info = .ok p → info.objType = .net →
      ∀ type c x e, type ≠ .range → x ∈ σ.counted type c → σ.state.net.netAny type c = some x →
        σ.dir x = some e → TakenOver σ.dir p e →
        ∀ y e', y ∈ σ.counted type c → σ.dir y = some e' → TakenOver σ.dir p e'
  | .delete o _ _ => ∀ e c, σ.dir o = some e → e.type ≠ .range → o ∈ σ.counted e.type c →
      σ.state.net.netAny e.type c = some o → (∀ y ∈ σ.counted e.type c, y = o) ∧
        ((∃ z, z ≠ o ∧ σ.dir z = some e) ∨
          ∀ y ∈ σ.dir.ofType e.type, σ.state.net.netof y ≠ some o)

section Sound

variable {fam : Family} {σ : Config} {type : InetObjType} {x c : DbObject}

/-- The members of the account of a block are the items that should be counted there. -/
theorem Sound.roll_eq_counted (h : Sound fam σ.state σ.dir) {a : BitStream}
    (hc : σ.state.tree.Covers a c) :
    roll (σ.dir.ofType type) σ.state.net.account c = σ.counted type c := by
  ext x
  constructor
  · rintro ⟨hx, hacc⟩
    rcases (h.account_live hacc).2 with ⟨n, hn, hmem⟩
    exact ⟨hx, n, hmem, hn⟩
  · rintro ⟨hx, n, hmem, hn⟩
    exact ⟨hx, h.account_of_netof hc hmem hn⟩

lemma Sound.mem_counted (h : Sound fam σ.state σ.dir)
    (hx : x ∈ roll (σ.dir.ofType type) σ.state.net.account c) : x ∈ σ.counted type c := by
  rcases (h.account_live hx.2).1 with ⟨a, ha⟩
  rwa [h.roll_eq_counted ha] at hx

/-- The parent of the members of an account is the first net of its block. -/
theorem Sound.netof_eq_first (h : Sound fam σ.state σ.dir) (hx : σ.state.net.account x = some c) :
    σ.state.net.netof x = inetFirstItem σ.state.tree c .net := by
  rcases h.account_live hx with ⟨⟨a, ha⟩, n, hn, hmem⟩
  cases hdir : σ.dir x with
  | none =>
    rw [h.unfiled hdir] at hn
    cases hn
  | some e =>
    rcases h.wf.filing with ⟨r, hfile⟩
    rcases h.parent hdir with ⟨d, ⟨hd, _⟩, hfirst⟩ | ⟨_, hnone⟩
    · rw [hfirst] at hn
      have hmem' : n ∈ σ.state.tree.items .net d := List.mem_of_mem_head? hn
      rcases hfile.filed_only ha hmem with ⟨q, hq, hcq, hcbits⟩
      have hdq := (hfile.mem_items_iff hq hd.1 .net).1 hmem'
      obtain rfl : c = d := hfile.shape.cover.unique hcq hdq.2.1 (hcbits.trans hdq.2.2.symm)
      exact hfirst
    · rw [hnone] at hn
      cases hn

end Sound

/-! ## Steps -/

lemma InsertStep.represented {fam : Family} {σ σ' : Config} {o b : DbObject} {info : InetInfo}
    {p : InetPrefix} {net : Option DbObject} (hs : InsertStep fam σ σ' o info p b net)
    (h : Sound fam σ.state σ.dir) (h' : Sound fam σ'.state σ'.dir)
    (hkeep : (Op.insert o info).KeepsAny fam σ) (hrep : Represented σ.state.net σ.dir.ofType) :
    Represented σ'.state.net σ'.dir.ofType := by
  rcases hs.enrolled.opened (h.setInfo o _) hs.unfiled with ⟨nd, hopen, _, heq⟩
  rw [← hs.dir] at hopen
  have hfin := ofType_finite h'.finite
  have hself : o ∈ σ'.dir.ofType info.objType := ⟨p, hs.dir_self⟩
  have hmoves := hs.enrolled.moved_filed hs.unfiled
  rw [← hs.dir] at hmoves
  have hnone : σ.state.net.account o = none := h.account_unfiled hs.unfiled
  have hbase : Represented nd σ'.dir.ofType := by
    intro type htype c
    rcases hopen.count type c with ⟨hcount, hany⟩ | ⟨hcount, hany⟩
    · have hold := hrep type htype c
      rw [Tally.Vouched, hopen.roll]
      show (nd.netCount type c = 0 → nd.netAny type c = none) ∧
        (nd.netCount type c ≠ 0 → ∃ x ∈ _, nd.netAny type c = some x)
      rw [hcount, hany]
      exact hold
    · exact ⟨fun _ => hany, fun hne => absurd hcount hne⟩
  have hmoved : Represented (moveAll nd (some o)
      (joining fam (σ.state.setInfo o (some info)) p info.objType)) σ'.dir.ofType := by
    intro type htype
    refine vouched_moveAll (hbase type htype) hopen.ledger hfin ofType_unique hmoves htype
      ?_
    intro c x y hx hany hmem hy
    rw [hopen.roll] at hx hy
    rcases hx.1 with ⟨q, hq⟩
    rcases hy.1 with ⟨q', hq'⟩
    rcases (hs.mem_joining_iff h h' hq).1 hmem with ⟨hnet, htaken⟩
    have hany' : σ.state.net.netAny type c = some x := by
      rcases hopen.count type c with ⟨_, hsame⟩ | ⟨_, hblank⟩
      · exact hsame.symm.trans hany
      · rw [hblank] at hany
        cases hany
    exact (hs.mem_joining_iff h h' hq').2 ⟨hnet, hkeep p hs.accepted hnet type c x _ htype
      (h.mem_counted hx) hany' hq htaken y _ (h.mem_counted hy) hq'⟩
  have hledger := hopen.ledger.moveAll hfin ofType_unique (some o) hmoves
  rw [heq]
  intro type htype
  refine vouched_setNetof hmoved hledger hfin hself
    (fun _ hx => ofType_unique hself hx) ?_ htype
  intro _ c hc
  have hout : o ∉ (joining fam (σ.state.setInfo o (some info)) p info.objType).map Prod.snd := by
    intro hmem
    rcases List.mem_map.1 hmem with ⟨m, hm, hmo⟩
    rcases hs.enrolled.moved m hm with ⟨q, hq⟩
    exact Placed.ne_of_dir hs.unfiled hq hmo
  rw [account_moveAll, if_neg hout, hopen.account] at hc
  cases hnone.symm.trans hc

section Delete

variable {fam : Family} {σ σ' : Config} {o b : DbObject} {now : ℕ}
  {attributes : Option InetInfo} {e : Entry}

section

variable (hs : DeleteStep fam σ σ' o now attributes e b) (h : Sound fam σ.state σ.dir)
  (htype : e.type = .net)

include hs h htype

/-- When another net has the same prefix, what belonged to the block still belongs to it. -/
theorem DeleteStep.heir_block {z : DbObject} (hz : z ≠ o) (hdir : σ.dir z = some e) :
    (heir (σ.state.setInfo o attributes) b o).bind σ.state.net.itemBlock = some b := by
  rcases h.wf.filing with ⟨r, hfile⟩
  have hloc := hs.withdrawn.located
  have hlisted : z ∈ σ.state.tree.items .net b := by
    rw [← htype]
    exact hfile.block_eq hdir hloc.mem hloc.bits
  have hstays : z ∈ ((σ.state.setInfo o attributes).tree.items .net b).erase o :=
    (List.mem_erase_of_ne hz).2 hlisted
  unfold heir
  split
  · rename_i hl
    rw [hl] at hstays
    cases hstays
  · rename_i f l hl
    -- The next net of the block has the same prefix, and so the same block.
    have hf : f ∈ σ.state.tree.items .net b := by
      refine List.mem_of_mem_erase (b := o) ?_
      show f ∈ ((σ.state.setInfo o attributes).tree.items .net b).erase o
      rw [hl]
      exact List.mem_cons_self
    rcases hfile.filed_only hloc.mem hf with ⟨q, hq, hqmem, hqbits⟩
    rcases h.block hq (by simp) with ⟨c, hc, hcloc⟩
    obtain rfl : c = b :=
      hfile.shape.cover.unique hcloc.mem hqmem (hcloc.bits.trans hqbits.symm)
    exact hc

/-- A net does not belong to the account of its own block. -/
theorem DeleteStep.account_ne : σ.state.net.account o ≠ some b := by
  intro hacc
  rcases h.wf.filing with ⟨r, hfile⟩
  rcases (h.account_live hacc).2 with ⟨n, hn, hmem⟩
  have hpar := h.parent hs.filed
  rw [hn] at hpar
  rcases hpar.longestMatch hfile with ⟨q, hq⟩
  have hbits := ((hfile.mem_items_iff hq.filed hs.withdrawn.located.mem .net).1 hmem).2.2
  have hlt := hq.above.1
  rw [Entry.Above, if_pos htype] at hlt
  have hown : σ.state.tree.bits b = e.pfx.bits := hs.withdrawn.located.bits
  have hq' : σ.state.tree.bits b = q.bits := hbits
  omega

end

section

variable (hs : DeleteStep fam σ σ' o now attributes e b) (h : Sound fam σ.state σ.dir)
  (h' : Sound fam σ'.state σ'.dir) (hkeep : (Op.delete o now attributes).KeepsAny fam σ)
  (hrep : Represented σ.state.net σ.dir.ofType)

include hs h h' hkeep hrep

/-- An item that is still the representative of its account when it leaves is its last member. -/
theorem DeleteStep.only_member (htype : e.type ≠ .range) {moved : NetData}
    (hmoved : moved = moveAll (σ.state.setInfo o attributes).net
      (heir (σ.state.setInfo o attributes) b o)
      (departing fam (σ.state.setInfo o attributes) e.type b o)) {c y : DbObject}
    (hc : moved.account o = some c) (hany : moved.netAny e.type c = some o)
    (hy : y ∈ roll (σ.dir.ofType e.type) moved.account c) : y = o := by
  subst hmoved
  have hfin := ofType_finite h.finite
  have hmoves := fun m hm => (hs.departing_filed h h' m hm).2
  have hbooks := (h.setInfo o attributes).ledger
  have hledger := hbooks.moveAll hfin ofType_unique
    (heir (σ.state.setInfo o attributes) b o) hmoves
  have hself : o ∈ σ.dir.ofType e.type := ⟨e.pfx, hs.filed⟩
  have hafter := (hledger.counts e.type htype).count_pos (hfin e.type) ⟨hself, hc⟩
  have hout : o ∉ (departing fam (σ.state.setInfo o attributes) e.type b o).map Prod.snd := by
    intro hmem
    rcases List.mem_map.1 hmem with ⟨m, hm, hmo⟩
    exact (hs.departing_filed h h' m hm).1 hmo
  rw [account_moveAll, if_neg hout] at hc
  have hin : o ∈ roll (σ.dir.ofType e.type) σ.state.net.account c := ⟨hself, hc⟩
  -- The moves do not change the representative of an account with members.
  have hrep' : Represented (σ.state.setInfo o attributes).net σ.dir.ofType := hrep
  have hbefore : (σ.state.setInfo o attributes).net.netAny e.type c = some o := by
    by_cases htarget : (heir (σ.state.setInfo o attributes) b o).bind
        (σ.state.setInfo o attributes).net.itemBlock = some c
    · have hpos : 0 < (σ.state.setInfo o attributes).net.netCount e.type c :=
        (hbooks.counts e.type htype).count_pos (hfin e.type) hin
      exact (netAny_moveAll_of_pos hpos htype htarget).symm.trans hany
    · have hsteady := moveAll_steady (hrep' e.type htype c).steady hbooks hfin
        ofType_unique hmoves htype htarget
      exact (hsteady.2 (ne_of_gt hafter)).symm.trans hany
  rcases hkeep e c hs.filed htype (h.mem_counted hin) hbefore with ⟨honly, hreplace⟩
  have hyc := hy.2
  rw [account_moveAll] at hyc
  split at hyc
  · rename_i hmem
    rcases hy.1 with ⟨q, hq⟩
    have hnetof := (hs.mem_departing_iff h h' hq).1 hmem
    rcases hreplace with ⟨z, hz, hdir⟩ | hnone
    · have hnet : e.type = .net := by
        by_contra hne
        rw [departing, if_neg hne] at hmem
        cases hmem
      have hblock := hs.heir_block h hnet hz hdir
      obtain rfl : b = c := Option.some.inj (hblock.symm.trans hyc)
      exact absurd hc (hs.account_ne h hnet)
    · exact absurd hnetof (hnone y hy.1)
  · exact honly y (h.mem_counted ⟨hy.1, hyc⟩)

lemma DeleteStep.represented : Represented σ'.state.net σ'.dir.ofType := by
  have hfin := ofType_finite h.finite
  have hmoves := fun m hm => (hs.departing_filed h h' m hm).2
  have hbooks := (h.setInfo o attributes).ledger
  have hledger := hbooks.moveAll hfin ofType_unique
    (heir (σ.state.setInfo o attributes) b o) hmoves
  have hmoved : Represented (moveAll (σ.state.setInfo o attributes).net
      (heir (σ.state.setInfo o attributes) b o)
      (departing fam (σ.state.setInfo o attributes) e.type b o)) σ.dir.ofType := by
    intro type htype
    refine vouched_moveAll (hrep type htype) hbooks hfin ofType_unique hmoves htype ?_
    -- All items whose parent is `o` move together.
    intro c x y hx _ hmem hy
    rcases hx.1 with ⟨q, hq⟩
    rcases hy.1 with ⟨q', hq'⟩
    refine (hs.mem_departing_iff h h' hq').2 ?_
    rw [h.netof_eq_first hy.2, ← h.netof_eq_first hx.2]
    exact (hs.mem_departing_iff h h' hq).1 hmem
  rcases hs.closed h h' rfl with ⟨nd, hacc, htally, hranges, _, heq⟩
  have hself : o ∈ σ.dir.ofType e.type := ⟨e.pfx, hs.filed⟩
  have hdone : Represented σ'.state.net σ.dir.ofType := by
    rw [heq]
    intro type htype
    refine vouched_setNetof (fun type htype c => ?_) (hledger.congr ?_ ?_ hranges) hfin hself
      (fun _ hx => ofType_unique hself hx) ?_ htype
    · rw [htally, hacc]
      exact hmoved type htype c
    · intro type c
      rw [hacc]
    · exact fun type _ c => .inl (congrFun (congrArg Tally.count (htally type)) c)
    · intro hrange c hc _ hany y hy
      rw [hacc] at hc hy
      exact hs.only_member h h' hkeep hrep hrange rfl hc
        ((congrFun (congrArg Tally.any (htally e.type)) c).symm.trans hany) hy
  intro type htype c
  have hnone : σ'.state.net.account o = none := h'.account_unfiled hs.dir_self
  have hvouched := hdone type htype c
  rw [Tally.Vouched, ← roll_dir_erase hnone, ← hs.dir] at hvouched
  exact hvouched

end

end Delete

/-! ## Runs -/

/-- A family that has nothing but its universe net counts nothing. -/
theorem represented_universe (u : DbObject) (info : Option InetInfo)
    (S : InetObjType → Set DbObject) :
    Represented (inetInsertRoot (State.empty.setInfo u info) u).net S := by
  have hzero : ∀ type c,
      (inetInsertRoot (State.empty.setInfo u info) u).net.netCount type c = 0 ∧
        (inetInsertRoot (State.empty.setInfo u info) u).net.netAny type c = none := by
    intro type c
    simp [inetInsertRoot, State.setInfo, State.empty, NetData.setItemBlock, NetData.empty]
  intro type _ c
  exact ⟨fun _ => (hzero type c).2, fun hne => absurd (hzero type c).1 hne⟩

/-- In every run whose operations do not take a representative away, the counts of every block are
those of the items below its nets, and the items that are named are among them. -/
theorem countsExact_of_run {fam : Family} {σ : Config}
    (hrun : Run fam (fun σ op => op.Aligned fam σ ∧ op.KeepsAny fam σ) Config.empty σ)
    {a : BitStream} {b : DbObject} (hb : σ.state.tree.Covers a b) {type : InetObjType}
    (htype : type ≠ .range) :
    σ.state.net.netCount type b = ((σ.counted type b).ncard : ℤ) ∧
      (σ.state.net.netCount type b = 0 → σ.state.net.netAny type b = none) ∧
      (0 < σ.state.net.netCount type b →
        ∃ x ∈ σ.counted type b, σ.state.net.netAny type b = some x) ∧
      ∀ net ∈ σ.state.tree.items .net b, ∃ items,
        inetNetItemsCmd fam σ.state type net = .ok items ∧ ∀ x ∈ items, x ∈ σ.counted type b := by
  have hreached := hrun.reached (I := fun σ => Represented σ.state.net σ.dir.ofType)
    (fun hok => hok.1)
    (fun hstep _ => by
      rcases (Valid.first hstep).2 with ⟨o, info, p, _, rfl⟩
      exact represented_universe o (some info) _)
    (fun {σ op σ'} hvalid hrep hok hstep => by
      rcases step_cases hvalid.sound hok.1 hstep with
        ⟨hsound, ⟨o, info, p, b, net, rfl, hs⟩ | ⟨o, now, attributes, e, b, rfl, hs⟩⟩
      · exact hs.represented hvalid.sound hsound hok.2 hrep
      · exact hs.represented hvalid.sound hsound hok.2 hrep)
  rcases hreached with rfl | ⟨hvalid, hrep⟩
  · exact absurd hb Config.not_covers_empty
  · have hroll : roll (σ.dir.ofType type) σ.state.net.account b = σ.counted type b :=
      hvalid.sound.roll_eq_counted hb
    have hcount : σ.state.net.netCount type b = ((σ.counted type b).ncard : ℤ) := by
      rw [← hroll]
      exact hvalid.sound.ledger.counts type htype b
    have hvouched : (σ.state.net.netCount type b = 0 → σ.state.net.netAny type b = none) ∧
        (σ.state.net.netCount type b ≠ 0 →
          ∃ x ∈ σ.counted type b, σ.state.net.netAny type b = some x) := by
      rw [← hroll]
      exact hrep type htype b
    refine ⟨hcount, hvouched.1, fun hpos => hvouched.2 (ne_of_gt hpos), fun net hnet => ?_⟩
    have hblock : σ.state.net.itemBlock net = some b := by
      rcases hvalid.sound.wf.filing with ⟨r, hfile⟩
      rcases hfile.filed_only hb hnet with ⟨q, hq, hqmem, hqbits⟩
      rcases hvalid.sound.block hq (by simp) with ⟨c, hc, hcloc⟩
      rw [hc, hfile.shape.cover.unique hcloc.mem hqmem (hcloc.bits.trans hqbits.symm)]
    have hnamed : ∀ x ∈ (σ.state.net.netAny type b).toList, x ∈ σ.counted type b := by
      intro x hx
      have hany : σ.state.net.netAny type b = some x := by simpa using hx
      by_cases hzero : σ.state.net.netCount type b = 0
      · rw [hvouched.1 hzero] at hany
        cases hany
      · rcases hvouched.2 hzero with ⟨y, hy, hrepr⟩
        obtain rfl : y = x := Option.some.inj (hrepr.symm.trans hany)
        exact hy
    refine ⟨(σ.state.net.netAny type b).toList, ?_, hnamed⟩
    cases type with
    | node => simp only [inetNetItemsCmd, hblock]
    | net => simp only [inetNetItemsCmd, hblock]
    | range => exact absurd rfl htype

def threeNodes : List Op :=
  [.insert 1 (.node ['0', '1']), .insert 2 (.node ['0', '2']), .insert 3 (.node ['1', '3'])]

/-- Of three nodes one that is not named is deleted. -/
theorem countsExact_of_run_nodes : ∃ τ σ, runOps octetFamily octetStart threeNodes = some τ ∧
    step octetFamily τ (.delete 2 0 none) = some σ ∧ (σ.counted .node 0).ncard = 2 ∧
    ∃ x ∈ σ.counted .node 0, σ.state.net.netAny .node 0 = some x := by
  obtain ⟨τ, hτ, hany, hdir, σ, hσ, hroot, htwo⟩ : ∃ τ,
      runChecked octetFamily (fun _ op => op matches .insert _ (.node _)) octetStart threeNodes =
        some τ ∧ (∀ c, τ.state.net.netAny .node c ≠ some 2) ∧ (Op.delete 2 0 none).quiet octetFamily τ ∧
      ∃ σ, step octetFamily τ (.delete 2 0 none) = some σ ∧ σ.state.tree.rootBlock = some 0 ∧
        σ.state.net.netCount .node 0 = 2 := by
    refine ⟨_, rfl, fun c => ?_, rfl, _, rfl, rfl, rfl⟩
    -- only the root block names a node
    rcases c with _ | _ | _ | _ | _ | _ | c <;>
      first | decide | exact (nofun : (none : Option DbObject) ≠ some 2)
  have hfirst : (Op.insert 0 (.net ['0', '0'] 0 [] [])).KeepsAny octetFamily Config.empty := by
    rintro p _ _ type c x e _ ⟨⟨q, hq⟩, _⟩
    cases hq
  have hinsert : ∀ {σ : Config} {op : Op}, (op matches .insert _ (.node _)) = true →
      op.Aligned octetFamily σ ∧ op.KeepsAny octetFamily σ := fun {σ op} hop => by
    match op, hop with
    | .insert o (.node s), _ => exact ⟨Op.aligned_of_quiet rfl, nofun⟩
  obtain ⟨hops, hrun⟩ := run_of_runChecked hinsert hτ
  have hcounts := countsExact_of_run ((Relation.ReflTransGen.head
    ⟨_, ⟨Op.aligned_of_quiet rfl, hfirst⟩, rfl⟩ hrun).tail
      ⟨_, ⟨Op.aligned_of_quiet hdir, fun e c he _ _ hnamed => ?_⟩, hσ⟩)
    (.root hroot (a := fun _ => false)) (nofun : InetObjType.node ≠ .range)
  · rw [htwo] at hcounts
    exact ⟨τ, σ, hops, hσ, by exact_mod_cast hcounts.1.symm, hcounts.2.2.1 (by decide)⟩
  · have htype : e.type = .node := by simpa [Op.quiet, he] using hdir
    rw [htype] at hnamed
    exact absurd hnamed (hany c)

/-- Nodes 1 and 2 are inserted and node 1 is deleted: the universe net has one node, but the node
that it names is still node 1. -/
theorem netAny_of_deleted_node : ∃ σ r, runOps octetFamily Config.empty
      [.insert 0 (.net ['0', '0'] 0 [] []), .insert 1 (.node ['0', '1']),
        .insert 2 (.node ['0', '2']), .delete 1 0 none] = some σ ∧
    σ.state.tree.rootBlock = some r ∧ σ.state.net.netCount .node r = 1 ∧
    σ.state.net.netAny .node r = some 1 ∧ inetNetItemsCmd octetFamily σ.state .node 0 = .ok [1] ∧
    σ.dir 1 = none ∧ 1 ∉ σ.counted .node r := by
  have hrun : (runOps octetFamily Config.empty
      [.insert 0 (.net ['0', '0'] 0 [] []), .insert 1 (.node ['0', '1']),
        .insert 2 (.node ['0', '2']), .delete 1 0 none]).map (fun σ =>
          (σ.state.tree.rootBlock, σ.state.net.netCount .node 0, σ.state.net.netAny .node 0,
            σ.state.net.itemBlock 0, σ.dir 1)) =
      some (some 0, 1, some 1, some 0, none) := by decide +kernel
  rcases Option.map_eq_some_iff.1 hrun with ⟨σ, hσ, hfields⟩
  simp only [Prod.mk.injEq] at hfields
  rcases hfields with ⟨hroot, hcount, hany, hblock, hdir⟩
  refine ⟨σ, 0, hσ, hroot, hcount, hany, ?_, hdir, ?_⟩
  · simp only [inetNetItemsCmd, hblock, hany]
    rfl
  · rintro ⟨⟨q, hq⟩, _⟩
    cases hdir.symm.trans hq

end Inet
end Unameit
