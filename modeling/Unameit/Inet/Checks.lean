import Unameit.Inet.Stamps

/-!
# Inet.Checks — duplicates at commit

Two nets may have the same prefix and two nodes the same address while a transaction is going on.
A block enters `blockCheckTable` when its list grows to two items and leaves it when the list
shrinks to one, and `Udb_Inet_Check_Integrity` reports a duplicate when the table is not empty.

`ChecksExact` says that the table holds exactly the blocks with two or more nets or nodes, and
`checksExact_of_run` that this, and with it the report, is right after every aligned run.
-/

namespace Unameit
namespace Inet

open List

variable {table : List (DbObject × InetObjType)} {b c x o : DbObject} {type type' : InetObjType}
  {a : BitStream}

open BitStream (Agree)

/-! ## Integrity checks -/

/-- The first loop of `Udb_Inet_Check_Integrity`: the first entry of the block table is reported
with the first two items of the block. -/
def inetCheckBlocks (fam : Family) (st : State) : Except Failure Unit :=
  match st.blockCheck with
  | [] => .ok ()
  | (block, type) :: _ =>
    match (st.tree.items type block)[0]?, (st.tree.items type block)[1]? with
    | some item1, some item2 =>
      match type with
      | .node => .error (.einetdupnode item1 item2 fam.nodeAddressAttribute)
      | .net => .error (.einetdupnet item1 item2 fam.netStartAttribute fam.netBitsAttribute)
      | .range => .error .stop
    | _, _ => .error .stop

/-- The second loop: the items of each type that are to be checked, if there are any, are given to
the check procedure of the type. -/
def inetCheckItems (eval : InetObjType → List DbObject → Except Failure Unit) (st : State) :
    Except Failure Unit :=
  [InetObjType.net, .range, .node].forM fun type =>
    let items := (st.net.itemCheck.filter fun e => e.2 = type).map Prod.fst
    if items = [] then .ok () else eval type items

def udbInetCheckIntegrity (fam : Family)
    (eval : InetObjType → List DbObject → Except Failure Unit) (st : State) :
    Except Failure Unit := do
  inetCheckBlocks fam st
  inetCheckItems eval st

/-! ## What the table should hold -/

/-- The table holds exactly the blocks and slots that list two or more nets or nodes. -/
def ChecksExact (st : State) : Prop :=
  ∀ b type, (b, type) ∈ st.blockCheck ↔
    (∃ a, st.tree.Covers a b) ∧ type ≠ .range ∧ 2 ≤ (st.tree.items type b).length

/-- Two nets share a prefix, or two nodes an address. -/
def Duplicate (dir : Directory) : Prop :=
  ∃ x y e, x ≠ y ∧ e.type ≠ .range ∧ dir x = some e ∧ dir y = some e

lemma mem_inetCheck :
    (c, type') ∈ inetCheck table b type ↔
      (c = b ∧ type' = type) ∨ ((c, type') ∈ table ∧ c ≠ b) := by
  simp [inetCheck]

lemma mem_inetUncheck : (c, type) ∈ inetUncheck table b ↔ (c, type) ∈ table ∧ c ≠ b := by
  simp [inetUncheck]

section Tree

variable {fam : Family} {t : Tree} {r : DbObject} {T : Coverage}
  {dir : Directory}

/-- A block does not list both nets and nodes. -/
theorem Filing.items_exclusive (h : Filing fam t r T dir) (hb : T b a) (hx : x ∈ t.items type b)
    (htype : type ≠ .range) (htype' : type' ≠ .range) (hne : type' ≠ type) :
    t.items type' b = [] := by
  have hbits := h.bits_of_mem_items hb hx
  cases type with
  | range => exact absurd rfl htype
  | node => exact h.items_eq_nil_of_slot hb hbits (by rintro rfl; exact hne rfl)
  | net =>
    cases type' with
    | net => exact absurd rfl hne
    | node => exact h.nodes_eq_nil_of_block hb hbits
    | range => exact absurd rfl htype'

/-- Nets or nodes of the same block are filed at the same prefix. -/
theorem Filing.entry_eq (h : Filing fam t r T dir) {y : DbObject} (hb : T b a)
    (hx : x ∈ t.items type b) (hy : y ∈ t.items type b) (htype : type ≠ .range) :
    ∃ p, dir x = some ⟨type, p⟩ ∧ dir y = some ⟨type, p⟩ := by
  rcases h.filed_only hb hx with ⟨p, hp, hpmem, hpbits⟩
  rcases h.filed_only hb hy with ⟨q, hq, hqmem, hqbits⟩
  have hag : Agree (t.bits b) p.stream q.stream := h.shape.cover.agree_of_mem hpmem hqmem
  have hpacc := h.accepted hp
  have hqacc := h.accepted hq
  have hfull : Agree (8 * fam.octets) p.stream q.stream := by
    cases type with
    | range => exact absurd rfl htype
    | node =>
      rw [hpbits, hpacc.2, fam_bits] at hag
      exact hag
    | net =>
      -- After the prefix all bits are off.
      intro k _
      rcases lt_or_ge k (t.bits b) with hlt | hge
      · exact hag k hlt
      · rw [hpacc.2.2 k (hpbits ▸ hge), hqacc.2.2 k (hqbits ▸ hge)]
  have hoctets := octets_eq_of_agree hpacc.1 hqacc.1 hfull
  obtain rfl : p = q := by
    rcases p with ⟨n, os⟩
    rcases q with ⟨m, os'⟩
    obtain rfl : os = os' := hoctets
    obtain rfl : n = m := hpbits.symm.trans hqbits
    rfl
  exact ⟨p, hp, hq⟩

/-- A block lists two nets or nodes exactly when there is a duplicate. -/
theorem Filing.duplicate_iff (h : Filing fam t r T dir) :
    Duplicate dir ↔ ∃ b type, (∃ a, T b a) ∧ type ≠ .range ∧ 2 ≤ (t.items type b).length := by
  constructor
  · rintro ⟨x, y, e, hxy, htype, hx, hy⟩
    rcases h.filed hx with ⟨b, hb, hbits, hxmem⟩
    rcases h.filed hy with ⟨c, hc, hcbits, hymem⟩
    obtain rfl : b = c := h.shape.cover.unique hb hc (hbits.trans hcbits.symm)
    refine ⟨b, e.type, ⟨_, hb⟩, htype, ?_⟩
    by_contra hshort
    match hl : t.items e.type b with
    | [] =>
      rw [hl] at hxmem
      cases hxmem
    | [z] =>
      rw [hl, mem_singleton] at hxmem hymem
      exact hxy (hxmem.trans hymem.symm)
    | _ :: _ :: _ =>
      rw [hl] at hshort
      simp at hshort
  · rintro ⟨b, type, ⟨a, hb⟩, htype, hlong⟩
    match hl : t.items type b with
    | [] =>
      rw [hl] at hlong
      simp at hlong
    | [_] =>
      rw [hl] at hlong
      simp at hlong
    | x :: y :: l =>
      have hnodup := h.listed_once type hb
      rw [hl, nodup_cons] at hnodup
      have hxy : x ≠ y := by
        rintro rfl
        exact hnodup.1 mem_cons_self
      rcases h.entry_eq (x := x) (y := y) hb (by simp [hl]) (by simp [hl]) htype with ⟨p, hx, hy⟩
      exact ⟨x, y, ⟨type, p⟩, hxy, htype, hx, hy⟩

end Tree

/-! ## Steps -/

section Step

variable {fam : Family} {σ σ' : Config}

lemma InsertStep.checksExact {info : InetInfo} {p : InetPrefix} {net : Option DbObject}
    (hs : InsertStep fam σ σ' o info p b net) (h : Sound fam σ.state σ.dir)
    (h' : Sound fam σ'.state σ'.dir) (hexact : ChecksExact σ.state) : ChecksExact σ'.state := by
  have henr := hs.enrolled
  rcases h'.wf.filing with ⟨r', hfile'⟩
  have hitems : σ'.state.tree.items = (σ.state.tree.setItems info.objType b
      (σ.state.tree.items info.objType b ++ [o])).items := henr.items
  have htable : σ'.state.blockCheck =
      if info.objType ≠ .range ∧ (σ.state.tree.items info.objType b ++ [o]).length = 2 then
        inetCheck σ.state.blockCheck b info.objType
      else σ.state.blockCheck := henr.blockCheck
  have hlive : ∀ {c} (type), σ.state.tree.items type c ≠ [] →
      ((∃ a, σ'.state.tree.Covers a c) ↔ ∃ a, σ.state.tree.Covers a c) := by
    intro c type hne
    constructor
    · rintro ⟨a, ha⟩
      by_contra hn
      exact hne (h.wf.storage.blank_items type (henr.fresh ha fun hc => hn ⟨a, hc⟩))
    · rintro ⟨a, ha⟩
      by_contra hn
      exact hne (henr.gone ha (fun hc => hn ⟨a, hc⟩) type)
  have hself : ∃ a, σ'.state.tree.Covers a b := ⟨_, henr.mem⟩
  have hmem : o ∈ σ'.state.tree.items info.objType b := by
    rw [hitems]
    simp
  intro c type
  by_cases hplace : type ≠ info.objType ∨ c ≠ b
  · -- Another list: its length is the same, and so is its entry in the table.
    have hkeep : σ'.state.tree.items type c = σ.state.tree.items type c := by
      rw [hitems, setItems_of_ne _ _ hplace]
    have hentry : (c, type) ∈ σ'.state.blockCheck ↔ (c, type) ∈ σ.state.blockCheck := by
      rw [htable]
      split
      · rename_i hgrow
        rw [mem_inetCheck]
        constructor
        · rintro (⟨hc, htype⟩ | hold)
          · exact absurd hplace (by simp [hc, htype])
          · exact hold.1
        · intro hold
          refine .inr ⟨hold, ?_⟩
          rintro rfl
          rcases (hexact c type).1 hold with ⟨_, hrange, hlong⟩
          rcases hself with ⟨a, ha⟩
          have hnil := hfile'.items_exclusive ha hmem hgrow.1 hrange
            (hplace.resolve_right fun hc => hc rfl)
          rw [← hkeep, hnil] at hlong
          simp at hlong
      · exact Iff.rfl
    rw [hentry, hkeep, hexact c type]
    constructor
    · rintro ⟨hc, hrange, hlong⟩
      exact ⟨(hlive type (ne_nil_of_length_pos (by omega))).2 hc, hrange, hlong⟩
    · rintro ⟨hc, hrange, hlong⟩
      exact ⟨(hlive type (ne_nil_of_length_pos (by omega))).1 hc, hrange, hlong⟩
  · obtain ⟨rfl, rfl⟩ : type = info.objType ∧ c = b := by tauto
    have hlen : (σ'.state.tree.items info.objType c).length =
        (σ.state.tree.items info.objType c).length + 1 := by
      rw [hitems]
      simp
    rw [htable]
    by_cases hgrow : info.objType ≠ .range ∧
        (σ.state.tree.items info.objType c ++ [o]).length = 2
    · have htwo : (σ.state.tree.items info.objType c).length + 1 = 2 := by simpa using hgrow.2
      rw [if_pos hgrow, mem_inetCheck]
      exact ⟨fun _ => ⟨hself, hgrow.1, by omega⟩, fun _ => .inl ⟨rfl, rfl⟩⟩
    · rw [if_neg hgrow, hexact]
      constructor
      · rintro ⟨_, hrange, hlong⟩
        exact ⟨hself, hrange, by omega⟩
      · rintro ⟨_, hrange, hlong⟩
        have hmore : 2 ≤ (σ.state.tree.items info.objType c).length := by
          by_contra hshort
          exact hgrow ⟨hrange, by simp; omega⟩
        exact ⟨(hlive _ (ne_nil_of_length_pos (lt_of_lt_of_le Nat.two_pos hmore))).1 hself,
          hrange, hmore⟩

lemma DeleteStep.checksExact {now : ℕ} {attributes : Option InetInfo} {e : Entry}
    (hs : DeleteStep fam σ σ' o now attributes e b) (h : Sound fam σ.state σ.dir)
    (hexact : ChecksExact σ.state) : ChecksExact σ'.state := by
  have hwith := hs.withdrawn
  have hloc : Located σ.state.tree (fun b a => σ.state.tree.Covers a b) o e b := hwith.located
  rcases h.wf.filing with ⟨r, hfile⟩
  have hitems : σ'.state.tree.items = (σ.state.tree.setItems e.type b
      ((σ.state.tree.items e.type b).erase o)).items := hwith.items
  have htable : σ'.state.blockCheck =
      if e.type ≠ .range ∧ ((σ.state.tree.items e.type b).erase o).length = 1 then
        inetUncheck σ.state.blockCheck b
      else σ.state.blockCheck := hwith.blockCheck
  have hlive : ∀ {c} (type), σ'.state.tree.items type c ≠ [] →
      ((∃ a, σ'.state.tree.Covers a c) ↔ ∃ a, σ.state.tree.Covers a c) := by
    intro c type hne
    constructor
    · rintro ⟨a, ha⟩
      exact ⟨a, hwith.mem ha⟩
    · rintro ⟨a, ha⟩
      by_contra hn
      exact hne (hwith.gone ha (fun hc => hn ⟨a, hc⟩) type)
  intro c type
  by_cases hplace : type ≠ e.type ∨ c ≠ b
  · have hkeep : σ'.state.tree.items type c = σ.state.tree.items type c := by
      rw [hitems, setItems_of_ne _ _ hplace]
    have hentry : (c, type) ∈ σ'.state.blockCheck ↔ (c, type) ∈ σ.state.blockCheck := by
      rw [htable]
      split
      · rename_i hshrink
        rw [mem_inetUncheck]
        refine ⟨And.left, fun hold => ⟨hold, ?_⟩⟩
        rintro rfl
        rcases (hexact c type).1 hold with ⟨_, hrange, hlong⟩
        have hnil := hfile.items_exclusive hloc.mem hloc.listed hshrink.1 hrange
          (hplace.resolve_right fun hc => hc rfl)
        rw [hnil] at hlong
        simp at hlong
      · exact Iff.rfl
    rw [hentry, hexact c type, hkeep]
    constructor
    · rintro ⟨hc, hrange, hlong⟩
      refine ⟨(hlive type ?_).2 hc, hrange, hlong⟩
      rw [hkeep]
      exact ne_nil_of_length_pos (by omega)
    · rintro ⟨hc, hrange, hlong⟩
      refine ⟨(hlive type ?_).1 hc, hrange, hlong⟩
      rw [hkeep]
      exact ne_nil_of_length_pos (by omega)
  · obtain ⟨rfl, rfl⟩ : type = e.type ∧ c = b := by tauto
    have hlen : (σ'.state.tree.items e.type c).length + 1 =
        (σ.state.tree.items e.type c).length := by
      rw [hitems, setItems_self, length_erase_of_mem hloc.listed]
      have hpos := length_pos_of_mem hloc.listed
      omega
    have hlen' : ((σ.state.tree.items e.type c).erase o).length =
        (σ'.state.tree.items e.type c).length := by
      rw [hitems, setItems_self]
    rw [htable, hlen']
    by_cases hshrink : e.type ≠ .range ∧ (σ'.state.tree.items e.type c).length = 1
    · rw [if_pos hshrink, mem_inetUncheck]
      constructor
      · rintro ⟨_, hne⟩
        exact absurd rfl hne
      · rintro ⟨_, _, hlong⟩
        omega
    · rw [if_neg hshrink, hexact]
      constructor
      · rintro ⟨hc, hrange, hlong⟩
        have hmore : 2 ≤ (σ'.state.tree.items e.type c).length := by
          by_contra hshort
          exact hshrink ⟨hrange, by omega⟩
        refine ⟨(hlive e.type (ne_nil_of_length_pos (by omega))).2 hc, hrange,
          hmore⟩
      · rintro ⟨_, hrange, hlong⟩
        exact ⟨⟨_, hloc.mem⟩, hrange, by omega⟩

end Step

/-! ## Runs -/

/-- With an exact table, a commit reports two different nets with one prefix or two different nodes
with one address when there are any, and goes on to check the items otherwise. -/
theorem udbInetCheckIntegrity_eq {fam : Family} {σ : Config} (h : Sound fam σ.state σ.dir)
    (hexact : ChecksExact σ.state) (eval : InetObjType → List DbObject → Except Failure Unit) :
    (¬ Duplicate σ.dir ∧
        udbInetCheckIntegrity fam eval σ.state = inetCheckItems eval σ.state) ∨
      (∃ x y p, x ≠ y ∧ σ.dir x = some ⟨.node, p⟩ ∧ σ.dir y = some ⟨.node, p⟩ ∧
        udbInetCheckIntegrity fam eval σ.state =
          .error (.einetdupnode x y fam.nodeAddressAttribute)) ∨
      ∃ x y p, x ≠ y ∧ σ.dir x = some ⟨.net, p⟩ ∧ σ.dir y = some ⟨.net, p⟩ ∧
        udbInetCheckIntegrity fam eval σ.state =
          .error (.einetdupnet x y fam.netStartAttribute fam.netBitsAttribute) := by
  rcases h.wf.filing with ⟨r, hfile⟩
  unfold udbInetCheckIntegrity inetCheckBlocks
  cases htable : σ.state.blockCheck with
  | nil =>
    refine .inl ⟨fun hdup => ?_, rfl⟩
    rcases hfile.duplicate_iff.1 hdup with ⟨b, type, hb⟩
    have hmem := (hexact b type).2 hb
    rw [htable] at hmem
    cases hmem
  | cons m rest =>
    rcases m with ⟨b, type⟩
    have hmem : (b, type) ∈ σ.state.blockCheck := by
      rw [htable]
      exact mem_cons_self
    rcases (hexact b type).1 hmem with ⟨⟨a, hb⟩, htype, hlong⟩
    match hl : σ.state.tree.items type b with
    | [] =>
      rw [hl] at hlong
      simp at hlong
    | [_] =>
      rw [hl] at hlong
      simp at hlong
    | x :: y :: l =>
      have hnodup := hfile.listed_once type hb
      rw [hl, nodup_cons] at hnodup
      have hxy : x ≠ y := by
        rintro rfl
        exact hnodup.1 mem_cons_self
      rcases hfile.entry_eq (x := x) (y := y) hb (by simp [hl]) (by simp [hl]) htype with
        ⟨p, hx, hy⟩
      right
      cases type with
      | node => exact .inl ⟨x, y, p, hxy, hx, hy, by simp [hl]; rfl⟩
      | net => exact .inr ⟨x, y, p, hxy, hx, hy, by simp [hl]; rfl⟩
      | range => exact absurd rfl htype

/-- From a family without duplicates and with an empty table, every aligned run leads to a state in
which the table is exact and a commit reports a duplicate exactly when there is one. -/
theorem checksExact_of_run {fam : Family} {σ₀ σ : Config} (h : Sound fam σ₀.state σ₀.dir)
    (hdup : ¬ Duplicate σ₀.dir) (hempty : σ₀.state.blockCheck = [])
    (hrun : Run fam (fun σ op => op.Aligned fam σ) σ₀ σ) :
    ChecksExact σ.state ∧ ∀ eval,
      (¬ Duplicate σ.dir ∧
          udbInetCheckIntegrity fam eval σ.state = inetCheckItems eval σ.state) ∨
        (∃ x y p, x ≠ y ∧ σ.dir x = some ⟨.node, p⟩ ∧ σ.dir y = some ⟨.node, p⟩ ∧
          udbInetCheckIntegrity fam eval σ.state =
            .error (.einetdupnode x y fam.nodeAddressAttribute)) ∨
        ∃ x y p, x ≠ y ∧ σ.dir x = some ⟨.net, p⟩ ∧ σ.dir y = some ⟨.net, p⟩ ∧
          udbInetCheckIntegrity fam eval σ.state =
            .error (.einetdupnet x y fam.netStartAttribute fam.netBitsAttribute) := by
  have hstart : ChecksExact σ₀.state := by
    rcases h.wf.filing with ⟨r, hfile⟩
    intro b type
    rw [hempty]
    refine ⟨fun hmem => absurd hmem not_mem_nil, fun hb => ?_⟩
    exact absurd (hfile.duplicate_iff.2 ⟨b, type, hb⟩) hdup
  have hinv : Sound fam σ.state σ.dir ∧ ChecksExact σ.state := by
    induction hrun with
    | refl => exact ⟨h, hstart⟩
    | tail _ hnext ih =>
      rcases hnext with ⟨op, halign, hstep⟩
      rcases ih with ⟨hsound, hexact⟩
      rcases step_cases hsound halign hstep with
        ⟨hsound', ⟨o, info, p, b, net, rfl, hs⟩ | ⟨o, now, attributes, e, b, rfl, hs⟩⟩
      · exact ⟨hsound', hs.checksExact hsound hsound' hexact⟩
      · exact ⟨hsound', hs.checksExact hsound hexact⟩
  exact ⟨hinv.2, udbInetCheckIntegrity_eq hinv.1 hinv.2⟩

/-- Two nodes at address 01 are reported. -/
theorem checksExact_of_run_nodes : ∃ σ, runOps octetFamily octetStart
      [.insert 1 (.node ['0', '1']), .insert 2 (.node ['0', '1'])] = some σ ∧
    ChecksExact σ.state ∧ Duplicate σ.dir := by
  obtain ⟨σ, hσ⟩ : ∃ σ, runOps octetFamily octetStart
      [.insert 1 (.node ['0', '1']), .insert 2 (.node ['0', '1'])] = some σ := ⟨_, rfl⟩
  have hdup : Duplicate σ.dir := by
    cases hσ
    exact ⟨1, 2, ⟨.node, ⟨8, [0x01]⟩⟩, by decide, by decide, rfl, rfl⟩
  refine ⟨σ, hσ, ?_, hdup⟩
  rcases runOps_cons hσ with ⟨σ₁, hfirst, hrest⟩
  rcases runOps_cons hrest with ⟨σ₂, hsecond, hend⟩
  obtain rfl : σ₂ = σ := Option.some.inj hend
  have haligned : ∀ {τ o}, (Op.insert o (.node ['0', '1'])).Aligned octetFamily τ := fun p hp =>
    .inl ((inetInfoPrefix_accepted hp).alignedAt (by simp [InetInfo.objType]))
  refine (checksExact_of_run octetStart_sound ?_ rfl
    (.tail (.single ⟨_, haligned, hfirst⟩) ⟨_, haligned, hsecond⟩)).1
  rintro ⟨x, y, e, hxy, _, hx, hy⟩
  exact hxy ((octetStart_dir hx).1.trans (octetStart_dir hy).1.symm)

def lostNetOps : List Op :=
  [.insert 0 (.net ['0', '0'] 0 [] []), .insert 1 (.net ['0', '0'] 2 [] []),
    .insert 2 (.net ['1', '0'] 4 [] []), .insert 3 (.net ['4', '0'] 4 [] []),
    .delete 1 0 none, .delete 2 0 none]

/-- When net 3 is lost and net 4 is then filed at its prefix, nothing is reported. -/
theorem duplicate_not_reported : ∃ σ,
    runOps octetFamily Config.empty (lostNetOps ++ [.insert 4 (.net ['4', '0'] 4 [] [])]) =
      some σ ∧
    σ.dir 3 = some ⟨.net, ⟨4, [0x40]⟩⟩ ∧ σ.dir 4 = some ⟨.net, ⟨4, [0x40]⟩⟩ ∧
    Duplicate σ.dir ∧ σ.state.blockCheck = [] ∧ ∀ eval,
      udbInetCheckIntegrity octetFamily eval σ.state = inetCheckItems eval σ.state := by
  have hrun : (runOps octetFamily Config.empty
      (lostNetOps ++ [.insert 4 (.net ['4', '0'] 4 [] [])])).map
        (fun σ => (σ.dir 3, σ.dir 4, σ.state.blockCheck)) =
      some (some ⟨.net, ⟨4, [0x40]⟩⟩, some ⟨.net, ⟨4, [0x40]⟩⟩, []) := by decide +kernel
  rcases Option.map_eq_some_iff.1 hrun with ⟨σ, hσ, hfields⟩
  rcases Prod.mk.inj hfields with ⟨hthree, hrest⟩
  rcases Prod.mk.inj hrest with ⟨hfour, htable⟩
  refine ⟨σ, hσ, hthree, hfour, ⟨3, 4, _, by decide, by decide, hthree, hfour⟩, htable, ?_⟩
  intro eval
  unfold udbInetCheckIntegrity inetCheckBlocks
  rw [htable]
  rfl

end Inet
end Unameit
