import Unameit.Inet.Run

/-!
# Inet.Stamps — when the last node left a slot

A node slot keeps a stamp: `INET_MAX_STAMP` while it lists a node, and the time at which its last
node left otherwise.  `Inet_New_Block` sets the stamp of a new slot and `Inet_Delete` that of a slot
that becomes empty; a node that is filed in an empty slot leaves the stamp alone.

`StampsExact` is what the stamps should say, given the times of the departures so far, and
`stampsExact_of_run` says that they do as long as no empty slot is filled again.
-/

namespace Unameit
namespace Inet

variable {p : InetPrefix} {o b : DbObject} {e : Entry}

/-! ## Stamps -/

/-- The times, in minutes, at which a node was last taken away from an address. -/
abbrev Departures := Octets → ℕ

def Departures.note (left : Departures) (σ : Config) : Op → Departures
  | .insert _ _ => left
  | .delete o now _ =>
    match σ.dir o with
    | none => left
    | some e => Function.update left e.pfx.octets (now / 60)

/-- The stamp of a slot is `INET_MAX_STAMP` exactly when it lists a node, and the stamp of an empty
slot is the time at which its last node left. -/
def StampsExact (fam : Family) (t : Tree) (left : Departures) : Prop :=
  ∀ p s, (Entry.mk .node p).Accepted fam → Reaches fam t p s →
    (t.stamp s = inetMaxStamp ↔ t.items .node s ≠ []) ∧
      (t.items .node s = [] → t.stamp s = left p.octets)

/-- Operations on nodes that do not fill an empty slot again, at a time that is not the stamp of
an occupied slot. -/
def Op.FreshSlot (fam : Family) (σ : Config) : Op → Prop
  | .insert o info => info.objType = .node ∧ ∀ p s,
      inetInfoPrefix fam σ.state.tree o info = .ok p → Reaches fam σ.state.tree p s →
        σ.state.tree.items .node s ≠ []
  | .delete o now _ => now / 60 ≠ inetMaxStamp ∧ ∀ e, σ.dir o = some e → e.type = .node

abbrev NodeRun (fam : Family) (ok : Config → Op → Prop) :
    Config × Departures → Config × Departures → Prop :=
  Relation.ReflTransGen fun s s' =>
    ∃ op, ok s.1 op ∧ step fam s.1 op = some s'.1 ∧ s'.2 = s.2.note s.1 op

section Step

variable {fam : Family} {σ σ' : Config} {left : Departures} {op : Op}

/-- Nodes are always aligned. -/
theorem Op.FreshSlot.aligned (h : op.FreshSlot fam σ) : op.Aligned fam σ := by
  cases op with
  | insert o info =>
    intro p hp
    have hacc := inetInfoPrefix_accepted hp
    exact .inl (hacc.alignedAt (by simp [h.1]))
  | delete o now attributes =>
    intro e he
    have htype := h.2 e he
    exact ⟨fun hc => absurd (htype.symm.trans hc) (by decide),
      fun hc => absurd (htype.symm.trans hc) (by decide)⟩

lemma InsertStep.stampsExact {info : InetInfo} {net : Option DbObject}
    (hs : InsertStep fam σ σ' o info p b net) (h : Sound fam σ.state σ.dir)
    (h' : Sound fam σ'.state σ'.dir) (hok : (Op.insert o info).FreshSlot fam σ)
    (hstamps : StampsExact fam σ.state.tree left) : StampsExact fam σ'.state.tree left := by
  have henr := hs.enrolled
  have htype : info.objType = .node := hok.1
  have hfull : p.bits = fam.bits := by
    have hacc := inetInfoPrefix_accepted hs.accepted
    rw [htype] at hacc
    exact hacc.2
  rcases h.wf.filing with ⟨r, hfile⟩
  rcases h'.wf.filing with ⟨r', hfile'⟩
  have hitems : ∀ c, σ'.state.tree.items .node c =
      if c = b then σ.state.tree.items .node b ++ [o] else σ.state.tree.items .node c := by
    intro c
    rw [henr.items]
    show (σ.state.tree.setItems info.objType b _).items .node c = _
    rw [htype]
    by_cases hc : c = b
    · rw [hc, if_pos rfl, setItems_self]
      rfl
    · rw [if_neg hc, setItems_of_ne _ _ (.inr hc)]
  intro q s hq hreach
  rw [hfile'.reaches_iff] at hreach
  rcases hreach with ⟨hmem, hbits⟩
  by_cases hold : σ.state.tree.Covers q.stream s
  · -- A slot that was there before: if it is the one that is filled, it was not empty.
    have hreach' : Reaches fam σ.state.tree q s :=
      (hfile.reaches_iff q s).2 ⟨hold, (henr.bits hold).symm.trans hbits⟩
    have hbefore := hstamps q s hq hreach'
    have hstamp : σ'.state.tree.stamp s = σ.state.tree.stamp s :=
      henr.stamp fun hspare => h.wf.storage.outside hspare hold
    rw [hstamp, hitems]
    by_cases hsb : s = b
    · subst hsb
      have hbusy : σ.state.tree.items .node s ≠ [] := by
        refine hok.2 p s hs.accepted ((hfile.reaches_iff p s).2 ⟨?_, ?_⟩)
        · have hag := hfile'.shape.cover.agree_of_mem hmem henr.mem
          rw [layout_len, henr.bits hold] at hag
          exact hfile.shape.cover.mem_of_agree hold hag
        · exact (henr.bits hold).symm.trans henr.bits_block
      exact ⟨⟨fun _ => by simp, fun _ => hbefore.1.2 hbusy⟩, fun hnil => by simp at hnil⟩
    · rw [if_neg hsb]
      exact hbefore
  · -- A new slot is the one of the new node.
    have hslot : σ'.state.tree.bits s = fam.bits := hbits.trans hq.2
    have hsb : s = b := by
      refine hfile'.shape.cover.unique (henr.way hmem hold) henr.mem ?_
      rw [layout_len, henr.bits_block]
      exact hslot.trans hfull.symm
    rw [henr.stamp_new hmem hold hslot, hitems, if_pos hsb]
    exact ⟨⟨fun _ => by simp, fun _ => rfl⟩, fun hnil => by simp at hnil⟩

lemma DeleteStep.stampsExact {now : ℕ} {attributes : Option InetInfo}
    (hs : DeleteStep fam σ σ' o now attributes e b) (h : Sound fam σ.state σ.dir)
    (h' : Sound fam σ'.state σ'.dir) (hok : (Op.delete o now attributes).FreshSlot fam σ)
    (hstamps : StampsExact fam σ.state.tree left) :
    StampsExact fam σ'.state.tree (left.note σ (.delete o now attributes)) := by
  have hwith := hs.withdrawn
  have hloc : Located σ.state.tree (fun b a => σ.state.tree.Covers a b) o e b := hwith.located
  have htype : e.type = .node := hok.2 e hs.filed
  have hacc := h.wf.accepted hs.filed
  rcases h.wf.filing with ⟨r, hfile⟩
  rcases h'.wf.filing with ⟨r', hfile'⟩
  have hlisted : o ∈ σ.state.tree.items .node b := htype ▸ hloc.listed
  have hitems : ∀ c, σ'.state.tree.items .node c =
      if c = b then (σ.state.tree.items .node b).erase o else σ.state.tree.items .node c := by
    intro c
    rw [hwith.items, htype]
    by_cases hc : c = b
    · rw [hc, if_pos rfl, setItems_self]
      rfl
    · rw [if_neg hc, setItems_of_ne _ _ (.inr hc)]
      rfl
  have hstamp : ∀ c, σ'.state.tree.stamp c =
      if c = b ∧ (σ.state.tree.items .node b).erase o = [] then now / 60
      else σ.state.tree.stamp c := by
    intro c
    rw [hwith.stamp, htype]
    show (if _ ∧ (σ.state.tree.items .node b).erase o = [] then
      Function.update σ.state.tree.stamp b (now / 60) else σ.state.tree.stamp) c = _
    by_cases hlast : (σ.state.tree.items .node b).erase o = []
    · by_cases hc : c = b
      · simp [hlast, hc]
      · simp [hlast, hc]
    · simp [hlast]
  have hnote : left.note σ (.delete o now attributes) =
      Function.update left e.pfx.octets (now / 60) := by
    rw [Departures.note, hs.filed]
  intro q s hq hreach
  rw [hfile'.reaches_iff] at hreach
  rcases hreach with ⟨hmem, hbits⟩
  have hold : σ.state.tree.Covers q.stream s := hwith.mem hmem
  have hbits' : σ.state.tree.bits s = q.bits := by
    have hsame : σ'.state.tree.bits = σ.state.tree.bits := hwith.bits
    rw [← hsame]
    exact hbits
  have hbefore := hstamps q s hq ((hfile.reaches_iff q s).2 ⟨hold, hbits'⟩)
  rw [hitems, hstamp, hnote]
  by_cases hsb : s = b
  · subst hsb
    have hbusy : σ.state.tree.items .node s ≠ [] := List.ne_nil_of_mem hlisted
    have hsame : q.octets = e.pfx.octets := by
      refine octets_eq_of_agree hq.1 hacc.1 ?_
      have hag := hfile.shape.cover.agree_of_mem hold hloc.mem
      rw [layout_len, hbits', hq.2, fam_bits] at hag
      exact hag
    rw [if_pos rfl, hsame, Function.update_self]
    by_cases hlast : (σ.state.tree.items .node s).erase o = []
    · rw [if_pos ⟨rfl, hlast⟩, hlast]
      exact ⟨⟨fun hmax => absurd hmax hok.1, fun hne => absurd rfl hne⟩, fun _ => rfl⟩
    · rw [if_neg fun hc => hlast hc.2]
      exact ⟨⟨fun _ => hlast, fun _ => hbefore.1.2 hbusy⟩, fun hnil => absurd hnil hlast⟩
  · have hother : q.octets ≠ e.pfx.octets := by
      intro hsame
      refine hsb (hfile.shape.cover.unique hold ?_ ?_ (c := b))
      · have hstream : q.stream = e.pfx.stream := by
          funext k
          rw [InetPrefix.stream, InetPrefix.stream, hsame]
        rw [hstream]
        exact hloc.mem
      · rw [layout_len, hbits', hq.2, hloc.bits]
        rcases e with ⟨type, p⟩
        cases htype
        exact hacc.2.symm
    rw [if_neg hsb, if_neg fun hc => hsb hc.1, Function.update_of_ne hother]
    exact hbefore

end Step

/-! ## Runs -/

/-- In every run of node insertions and deletions that never fills an empty slot again, the stamps
say which slots are occupied and when the others became empty. -/
theorem stampsExact_of_run {fam : Family} {s s' : Config × Departures}
    (h : Sound fam s.1.state s.1.dir) (hstamps : StampsExact fam s.1.state.tree s.2)
    (hrun : NodeRun fam (fun σ op => op.FreshSlot fam σ) s s') :
    StampsExact fam s'.1.state.tree s'.2 := by
  have hinv : Sound fam s'.1.state s'.1.dir ∧ StampsExact fam s'.1.state.tree s'.2 := by
    induction hrun with
    | refl => exact ⟨h, hstamps⟩
    | tail _ hnext ih =>
      rcases hnext with ⟨op, hok, hstep, hnote⟩
      rcases ih with ⟨hsound, hexact⟩
      rcases step_cases hsound hok.aligned hstep with
        ⟨hsound', ⟨o, info, p, b, net, rfl, hs⟩ | ⟨o, now, attributes, e, b, rfl, hs⟩⟩
      · rw [hnote]
        exact ⟨hsound', hs.stampsExact hsound hsound' hok hexact⟩
      · rw [hnote]
        exact ⟨hsound', hs.stampsExact hsound hsound' hok hexact⟩
  exact hinv.2

/-- A new family has no slots. -/
theorem stampsExact_universe {fam : Family} {u : DbObject} (info : Option InetInfo)
    (hacc : (Entry.mk .net p).Accepted fam) (hbits : p.bits = 0) (left : Departures) :
    StampsExact fam (inetInsertRoot (State.empty.setInfo u info) u).tree left := by
  intro q s hq hreach
  rcases (sound_universe info hacc hbits).wf.filing with ⟨r, hfile⟩
  have hlen := ((hfile.reaches_iff q s).1 hreach).2
  have hzero : (inetInsertRoot (State.empty.setInfo u info) u).tree.bits s = 0 := by
    simp [inetInsertRoot, State.setInfo, State.empty, Tree.empty]
  have hpos := fam_bits_pos fam
  rw [hq.2] at hlen
  omega

def octetStart : Config :=
  ⟨inetInsertRoot (State.empty.setInfo 0 (some (.net ['0', '0'] 0 [] []))) 0,
    Function.update (fun _ => none) 0 (some ⟨.net, ⟨0, [0]⟩⟩)⟩

lemma octetStart_sound : Sound octetFamily octetStart.state octetStart.dir :=
  sound_universe _ (octet_net_accepted 0 0 (by decide) (by decide)) rfl

lemma octetStart_dir {x : DbObject} (h : octetStart.dir x = some e) :
    x = 0 ∧ e = ⟨.net, ⟨0, [0]⟩⟩ := by
  have hupdate : Function.update (fun _ => none) 0 (some (Entry.mk .net ⟨0, [0]⟩)) x = some e := h
  by_cases hx : x = 0
  · rw [hx] at hupdate
    exact ⟨hx, (Option.some.inj hupdate).symm⟩
  · rw [Function.update_of_ne hx] at hupdate
    cases hupdate

theorem stampsExact_of_run_node : ∃ σ, runOps octetFamily octetStart
      [.insert 1 (.node ['0', '1']), .delete 1 60 none] = some σ ∧
    StampsExact octetFamily σ.state.tree (Function.update (fun _ => 0) [0x01] 1) := by
  obtain ⟨σ, hσ⟩ : ∃ σ, runOps octetFamily octetStart
      [.insert 1 (.node ['0', '1']), .delete 1 60 none] = some σ := ⟨_, rfl⟩
  refine ⟨σ, hσ, ?_⟩
  rcases runOps_cons hσ with ⟨σ₁, hfirst, hrest⟩
  rcases runOps_cons hrest with ⟨σ₂, hsecond, hend⟩
  obtain rfl : σ₂ = σ := Option.some.inj hend
  have hdir : σ₁.dir 1 = some ⟨.node, ⟨8, [0x01]⟩⟩ := by
    rcases step_insert hfirst with ⟨p, _, hp, rfl⟩
    cases hp
    rfl
  have hinsert : (Op.insert 1 (.node ['0', '1'])).FreshSlot octetFamily octetStart := by
    refine ⟨rfl, fun p s hp hreach => ?_⟩
    cases hp
    cases hreach
  have hdelete : (Op.delete 1 60 none).FreshSlot octetFamily σ₁ := by
    refine ⟨by decide, fun e he => ?_⟩
    cases hdir.symm.trans he
    rfl
  have hnote : Function.update (fun _ => 0) [0x01] 1 =
      Departures.note (fun _ => 0) σ₁ (.delete 1 60 none) := by
    rw [Departures.note, hdir]
  rw [hnote]
  exact stampsExact_of_run (s := (octetStart, fun _ => 0)) octetStart_sound
    (stampsExact_universe _ (octet_net_accepted 0 0 (by decide) (by decide)) rfl _)
    (.tail (b := (σ₁, fun _ => 0)) (c := (σ₂, _)) (.single ⟨_, hinsert, hfirst, rfl⟩)
      ⟨_, hdelete, hsecond, rfl⟩)

/-- A node is inserted at address 01, deleted after one minute and inserted again: the slot lists
the node, but its stamp is still 1. -/
theorem stamp_of_refilled_slot : ∃ σ, runOps octetFamily Config.empty
      [.insert 0 (.net ['0', '0'] 0 [] []), .insert 1 (.node ['0', '1']), .delete 1 60 none,
        .insert 1 (.node ['0', '1'])] = some σ ∧
    ∃ s, Reaches octetFamily σ.state.tree ⟨8, [0x01]⟩ s ∧ σ.state.tree.items .node s = [1] ∧
      σ.state.tree.stamp s = 1 ∧ ∀ left, ¬ StampsExact octetFamily σ.state.tree left := by
  refine ⟨_, rfl, _, rfl, rfl, rfl, fun left hexact => ?_⟩
  have hslot := (hexact ⟨8, [0x01]⟩ _ ⟨rfl, rfl⟩ rfl).1
  exact absurd (hslot.2 (by decide)) (by decide)

end Inet
end Unameit
