import Unameit.Inet.Run

/-!
# Inet.Moves — which items get another parent

The walks of `Inet_Reparent` find the items that a net takes over or gives up.  Here these items
are described by the content of the family alone: a new net takes over the items for which it is
the longest match (`TakenOver`), and a net that goes away gives up the items whose parent it was.
-/

namespace Unameit
namespace Inet

open List

variable {x : DbObject} {e : Entry}

open BitStream (Agree)

/-! ## Longest matches -/

def Entry.Matches (e : Entry) (q : InetPrefix) : Prop :=
  e.Above q.bits ∧ Agree q.bits q.stream e.pfx.stream

structure LongestMatch (dir : Directory) (e : Entry) (n : DbObject) (q : InetPrefix) : Prop where
  filed : dir n = some ⟨.net, q⟩
  above : e.Matches q
  longest : ∀ {m q'}, dir m = some ⟨.net, q'⟩ → e.Matches q' → q'.bits ≤ q.bits

/-- A new net with prefix `p` is a longer match for the entry than all nets that are there. -/
def TakenOver (dir : Directory) (p : InetPrefix) (e : Entry) : Prop :=
  e.Matches p ∧ ∀ n q, dir n = some ⟨.net, q⟩ → e.Matches q → q.bits < p.bits

variable {fam : Family}

section Filing

variable {t : Tree} {r n : DbObject} {T : Coverage} {dir : Directory}
  {q : InetPrefix}

/-- A net above an entry is listed in a net block above it. -/
theorem Filing.netBlock_of_matches (h : Filing fam t r T dir) (hn : dir n = some ⟨.net, q⟩)
    (hmatch : e.Matches q) : ∃ c, NetBlock t T e c ∧ t.bits c = q.bits ∧ n ∈ t.items .net c := by
  rcases h.filed hn with ⟨c, hc, hbits, hlisted⟩
  have hbits' : t.bits c = q.bits := hbits
  refine ⟨c, ⟨?_, ?_, ne_nil_of_mem hlisted⟩, hbits', hlisted⟩
  · refine h.shape.cover.mem_of_agree hc ?_
    show Agree (t.bits c) q.stream e.pfx.stream
    rw [hbits']
    exact hmatch.2
  · rw [hbits']
    exact hmatch.1

lemma IsParent.longestMatch (h : Filing fam t r T dir) (hpar : IsParent t T e (some n)) :
    ∃ q, LongestMatch dir e n q := by
  rcases hpar with ⟨c, ⟨hc, hmax⟩, hn⟩ | ⟨_, hn⟩
  · have hmem : n ∈ t.items .net c := mem_of_mem_head? hn.symm
    rcases h.filed_only hc.1 hmem with ⟨q, hq, hqmem, hbits⟩
    have hag : Agree (t.bits c) q.stream e.pfx.stream := h.shape.cover.agree_of_mem hqmem hc.1
    refine ⟨q,
      { filed := hq
        above := ⟨hbits ▸ hc.2.1, hbits ▸ hag⟩
        longest := ?_ }⟩
    intro m q' hm hmatch
    rcases h.netBlock_of_matches hm hmatch with ⟨c', hc', hbits', _⟩
    have hle := hmax c' hc'
    omega
  · cases hn

/-- Two longest matches have the same prefix. -/
theorem LongestMatch.unique {n' : DbObject} {q' : InetPrefix}
    (hacc : ∀ {o e}, dir o = some e → e.Accepted fam) (h : LongestMatch dir e n q)
    (h' : LongestMatch dir e n' q') : q = q' := by
  have hbits : q.bits = q'.bits :=
    le_antisymm (h'.longest h.filed h.above) (h.longest h'.filed h'.above)
  obtain ⟨hlen, -, hzero⟩ := hacc h.filed
  obtain ⟨hlen', -, hzero'⟩ := hacc h'.filed
  have hoctets : q.octets = q'.octets := octets_eq_of_agree hlen hlen' fun k _ => by
    by_cases hk : k < q.bits
    · exact (h.above.2 k hk).trans (h'.above.2 k (hbits ▸ hk)).symm
    · rw [hzero k (Nat.not_lt.1 hk), hzero' k (hbits ▸ Nat.not_lt.1 hk)]
  cases q
  cases q'
  exact congrArg₂ _ hbits hoctets

lemma IsParent.unique (h : Shape fam t r T) {net net' : Option DbObject}
    (hnet : IsParent t T e net) (hnet' : IsParent t T e net') : net = net' := by
  rcases hnet with ⟨c, ⟨hc, hmax⟩, heq⟩ | ⟨hnone, heq⟩
  · rcases hnet' with ⟨c', ⟨hc', hmax'⟩, heq'⟩ | ⟨hnone', _⟩
    · obtain rfl : c = c' :=
        h.cover.unique hc.1 hc'.1 (le_antisymm (hmax' c hc) (hmax c' hc'))
      exact heq.trans heq'.symm
    · exact absurd hc (hnone' c)
  · rcases hnet' with ⟨c', ⟨hc', _⟩, _⟩ | ⟨_, heq'⟩
    · exact absurd hc' (hnone c')
    · exact heq.trans heq'.symm

end Filing

/-- Every entry with a net above it has a longest match, and that is its parent. -/
theorem Sound.exists_longestMatch {st : State} {dir : Directory} (h : Sound fam st dir)
    {m : DbObject} {q : InetPrefix} (hx : dir x = some e) (hm : dir m = some ⟨.net, q⟩)
    (hmatch : e.Matches q) : ∃ n q', st.net.netof x = some n ∧ LongestMatch dir e n q' := by
  rcases h.wf.filing with ⟨r, hfile⟩
  have hpar := h.parent hx
  cases hnet : st.net.netof x with
  | some n =>
    rw [hnet] at hpar
    rcases hpar.longestMatch hfile with ⟨q', hq'⟩
    exact ⟨n, q', rfl, hq'⟩
  | none =>
    rw [hnet] at hpar
    rcases hfile.netBlock_of_matches hm hmatch with ⟨c, hc, _⟩
    rcases hpar with ⟨c', ⟨hc', _⟩, hfirst⟩ | ⟨hnone, _⟩
    · exact absurd (head?_eq_none_iff.1 hfirst.symm) hc'.2.2
    · exact absurd hc (hnone c)

variable {σ σ' : Config} {o b : DbObject}

/-- The tree is a longest-prefix-match table: in every aligned run a parent is the longest match
among the nets that are filed.  What has been inserted and deleted before, and in which order, does
not matter. -/
theorem netof_of_contents {τ : Config} (hσ : Run fam (fun σ op => op.Aligned fam σ) Config.empty σ)
    (hτ : Run fam (fun σ op => op.Aligned fam σ) Config.empty τ) (hdir : τ.dir = σ.dir) :
    (∀ o e, σ.dir o = some e →
      (∀ n, σ.state.net.netof o = some n → ∃ q, LongestMatch σ.dir e n q) ∧
        (σ.state.net.netof o = none → ∀ m q, σ.dir m = some ⟨.net, q⟩ → ¬ e.Matches q)) ∧
      ∀ o, (τ.state.net.netof o).map τ.dir = (σ.state.net.netof o).map σ.dir := by
  have hsound : ∀ {υ}, Run fam (fun σ op => op.Aligned fam σ) Config.empty υ →
      υ = Config.empty ∨ Sound fam υ.state υ.dir := by
    intro υ hrun
    rcases Run.reached (I := fun _ => True) id (fun _ _ => trivial) (fun _ _ _ _ => trivial)
      hrun with rfl | ⟨hvalid, -⟩
    · exact .inl rfl
    · exact .inr hvalid.sound
  have hmatch : ∀ {υ}, Run fam (fun σ op => op.Aligned fam σ) Config.empty υ → ∀ o e,
      υ.dir o = some e →
        (∀ n, υ.state.net.netof o = some n → ∃ q, LongestMatch υ.dir e n q) ∧
          (υ.state.net.netof o = none → ∀ m q, υ.dir m = some ⟨.net, q⟩ → ¬ e.Matches q) := by
    intro υ hrun o e he
    rcases hsound hrun with rfl | h
    · cases he
    · rcases h.wf.filing with ⟨r, hfile⟩
      refine ⟨fun n hn => (hn ▸ h.parent he).longestMatch hfile, fun hn m q hm habove => ?_⟩
      rcases h.exists_longestMatch he hm habove with ⟨n, q', hsome, -⟩
      cases hn.symm.trans hsome
  have hunfiled : ∀ {υ}, Run fam (fun σ op => op.Aligned fam σ) Config.empty υ → ∀ {o},
      υ.dir o = none → υ.state.net.netof o = none := by
    intro υ hrun o ho
    rcases hsound hrun with rfl | h
    · rfl
    · exact h.unfiled ho
  refine ⟨hmatch hσ, fun o => ?_⟩
  cases he : σ.dir o with
  | none => rw [hunfiled hσ he, hunfiled hτ (hdir ▸ he), Option.map_none, Option.map_none]
  | some e =>
    have h₁ := hmatch hσ o e he
    have h₂ := hmatch hτ o e (hdir ▸ he)
    rw [hdir] at h₂ ⊢
    cases hn : σ.state.net.netof o with
    | none =>
      cases hn' : τ.state.net.netof o with
      | none => rfl
      | some n' =>
        rcases h₂.1 n' hn' with ⟨q, hq⟩
        exact absurd hq.above (h₁.2 hn n' q hq.filed)
    | some n =>
      rcases h₁.1 n hn with ⟨q, hq⟩
      cases hn' : τ.state.net.netof o with
      | none => exact absurd hq.above (h₂.2 hn' n q hq.filed)
      | some n' =>
        rcases h₂.1 n' hn' with ⟨q', hq'⟩
        have hacc : ∀ {o e}, σ.dir o = some e → e.Accepted fam := by
          rcases hsound hσ with rfl | h
          · exact nofun
          · rcases h.wf.filing with ⟨r, hfile⟩
            exact hfile.accepted
        rw [Option.map_some, Option.map_some, hq.filed, hq'.filed, hq.unique hacc hq']

/-- Nets 40/2 and 50/4 with a node in either, and a node that is deleted again. -/
def nestedOps : List Op :=
  [.insert 0 (.net ['0', '0'] 0 [] []), .insert 1 (.net ['4', '0'] 2 [] []),
    .insert 2 (.net ['5', '0'] 4 [] []), .insert 3 (.node ['5', '2']),
    .insert 4 (.node ['6', '1']), .insert 5 (.node ['5', '3']), .delete 5 60 none]

/-- The same content, from the nodes to the universe net's first subnet. -/
def nestedOps' : List Op :=
  [.insert 0 (.net ['0', '0'] 0 [] []), .insert 4 (.node ['6', '1']), .insert 3 (.node ['5', '2']),
    .insert 2 (.net ['5', '0'] 4 [] []), .insert 1 (.net ['4', '0'] 2 [] [])]

def nestedContent : List (Option Entry) :=
  [some ⟨.net, ⟨0, [0x00]⟩⟩, some ⟨.net, ⟨2, [0x40]⟩⟩, some ⟨.net, ⟨4, [0x50]⟩⟩,
    some ⟨.node, ⟨8, [0x52]⟩⟩, some ⟨.node, ⟨8, [0x61]⟩⟩, none]

theorem netof_of_contents_nested : ∃ σ τ, runOps octetFamily Config.empty nestedOps = some σ ∧
    runOps octetFamily Config.empty nestedOps' = some τ ∧
    σ.state.net.netof 3 = some 2 ∧ (∃ q, LongestMatch σ.dir ⟨.node, ⟨8, [0x52]⟩⟩ 2 q) ∧
    ∀ o, (τ.state.net.netof o).map τ.dir = (σ.state.net.netof o).map σ.dir := by
  have hrun : (runChecked octetFamily (Op.quiet octetFamily) Config.empty nestedOps).bind
      (fun σ => (runChecked octetFamily (Op.quiet octetFamily) Config.empty nestedOps').map
        fun τ => (σ.state.net.netof 3, (range 6).map σ.dir, (range 6).map τ.dir)) =
      some (some 2, nestedContent, nestedContent) := by decide +kernel
  rcases Option.bind_eq_some_iff.1 hrun with ⟨σ, hσ, hτ⟩
  rcases Option.map_eq_some_iff.1 hτ with ⟨τ, hτ, hfields⟩
  simp only [Prod.mk.injEq] at hfields
  rcases hfields with ⟨hnet, hsame, hsame'⟩
  rcases run_of_runChecked Op.aligned_of_quiet hσ with ⟨hσ, hrunσ⟩
  rcases run_of_runChecked Op.aligned_of_quiet hτ with ⟨hτ, hrunτ⟩
  have hdir : τ.dir = σ.dir := by
    funext x
    by_cases hx : x < 6
    · exact map_inj_left.1 (hsame'.trans hsame.symm) x (mem_range.2 hx)
    · have hout : ∀ op ∈ nestedOps ++ nestedOps', op.object ≠ x := fun op hop heq =>
        hx (heq ▸ (by decide : ∀ op ∈ nestedOps ++ nestedOps', op.object < 6) op hop)
      rw [dir_of_runOps hτ fun op hop => hout op (mem_append_right _ hop),
        dir_of_runOps hσ fun op hop => hout op (mem_append_left _ hop)]
  have hthree : σ.dir 3 = some ⟨.node, ⟨8, [0x52]⟩⟩ :=
    Option.some.inj (congrArg (fun l => l[3]?) hsame)
  have h := netof_of_contents hrunσ hrunτ hdir
  exact ⟨σ, τ, hσ, hτ, hnet, (h.1 3 _ hthree).1 2 hnet, h.2⟩

/-! ## Insertion -/

section Insert

variable {info : InetInfo} {p : InetPrefix} {net : Option DbObject}

/-- When the new item is the first net of its block, there was no net on the block. -/
theorem InsertStep.items_eq_nil_of_first (hs : InsertStep fam σ σ' o info p b net)
    (h : Sound fam σ.state σ.dir) (htype : info.objType = .net)
    (hfirst : inetFirstItem σ'.state.tree b .net = some o) : σ.state.tree.items .net b = [] := by
  have hitems : σ'.state.tree.items .net b = σ.state.tree.items .net b ++ [o] := by
    rw [hs.enrolled.items, htype]
    exact setItems_self _ _ _ _
  cases hl : σ.state.tree.items .net b with
  | nil => rfl
  | cons f l =>
    rw [inetFirstItem, hitems, hl] at hfirst
    obtain rfl : f = o := Option.some.inj hfirst
    have hmem : f ∈ σ.state.tree.items .net b := by
      rw [hl]
      exact mem_cons_self
    by_cases hlive : ∃ a, σ.state.tree.Covers a b
    · rcases hlive with ⟨a, ha⟩
      rcases h.wf.filed_only ha hmem with ⟨q, hq, _⟩
      rw [hs.unfiled] at hq
      cases hq
    · have hspare := hs.enrolled.fresh hs.enrolled.mem fun hb => hlive ⟨_, hb⟩
      have hblank : σ.state.tree.items .net b = [] := h.wf.storage.blank_items .net hspare
      rw [hl] at hblank
      cases hblank

/-- The items that move are those for which the new net is the longest match. -/
theorem InsertStep.mem_joining_iff (hs : InsertStep fam σ σ' o info p b net)
    (h : Sound fam σ.state σ.dir) (h' : Sound fam σ'.state σ'.dir) (hx : σ.dir x = some e) :
    x ∈ (joining fam (σ.state.setInfo o (some info)) p info.objType).map Prod.snd ↔
      info.objType = .net ∧ TakenOver σ.dir p e := by
  rcases h'.wf.filing with ⟨r, hfile'⟩
  have hxo : x ≠ o := Placed.ne_of_dir hs.unfiled hx
  have hself := hs.dir_self
  have hx' : σ'.dir x = some e := (hs.dir_of_ne hxo).trans hx
  have hnetof := hs.enrolled.netof x
  rw [if_neg hxo] at hnetof
  constructor
  · intro hmem
    rw [if_pos hmem] at hnetof
    have hpar := h'.parent hx'
    rw [hnetof] at hpar
    rcases hpar.longestMatch hfile' with ⟨q, hq⟩
    obtain ⟨htype, rfl⟩ : info.objType = .net ∧ p = q := by
      have heq := Option.some.inj (hself.symm.trans hq.filed)
      exact ⟨congrArg Entry.type heq, congrArg Entry.pfx heq⟩
    refine ⟨htype, hq.above, fun n q' hn hmatch => ?_⟩
    have hno : n ≠ o := Placed.ne_of_dir hs.unfiled hn
    rcases hfile'.netBlock_of_matches ((hs.dir_of_ne hno).trans hn) hmatch with ⟨c, hc, hcbits, hnc⟩
    refine lt_of_le_of_ne (hq.longest ((hs.dir_of_ne hno).trans hn) hmatch) fun heq => ?_
    -- A net of the same length would come before the new one on the same block.
    rcases hpar with ⟨d, ⟨hd, _⟩, hfirst⟩ | ⟨hnone, _⟩
    · have hod : o ∈ σ'.state.tree.items .net d := mem_of_mem_head? hfirst.symm
      have hdb := (hfile'.mem_items_iff hself hd.1 .net).1 hod
      obtain rfl : d = b :=
        hfile'.shape.cover.unique hdb.2.1 hs.enrolled.mem
          (hdb.2.2.trans hs.enrolled.bits_block.symm)
      obtain rfl : c = d := hfile'.shape.cover.unique hc.1 hd.1
        (hcbits.trans (heq.trans hs.enrolled.bits_block.symm))
      have hnil := hs.items_eq_nil_of_first h htype hfirst.symm
      rw [hs.enrolled.items] at hnc
      rcases mem_setItems_append.1 hnc with hnc | ⟨hnc, _, _⟩
      · have hold : n ∈ σ.state.tree.items .net c := hnc
        rw [hnil] at hold
        cases hold
      · exact hno hnc
    · exact hnone c hc
  · rintro ⟨htype, hmatch, hlonger⟩
    by_contra hmem
    rw [if_neg hmem] at hnetof
    rcases h'.exists_longestMatch hx' (htype ▸ hself) hmatch with ⟨n, q, hn, hq⟩
    have hle := hq.longest (htype ▸ hself) hmatch
    have hno : n ≠ o := by
      rintro rfl
      exact h.netof_ne hs.unfiled x (hnetof.symm.trans hn)
    have hlt := hlonger n q ((hs.dir_of_ne hno).symm.trans hq.filed) hq.above
    omega

end Insert

/-! ## Deletion -/

section Delete

variable {now : ℕ} {attributes : Option InetInfo}

lemma DeleteStep.universeNet_ne (hs : DeleteStep fam σ σ' o now attributes e b)
    (h' : Sound fam σ'.state σ'.dir) : σ.state.tree.universeNet ≠ some o := by
  intro hu
  rcases h'.wf.filing with ⟨r, hfile'⟩
  rcases hfile'.universe_first with ⟨u, hu', hfirst⟩
  rw [hs.withdrawn.universeNet] at hu'
  obtain rfl : o = u := Option.some.inj (hu.symm.trans hu')
  have hmem : o ∈ σ'.state.tree.items .net r := mem_of_mem_head? hfirst
  rcases hfile'.filed_only (hfile'.shape.cover.root_mem (fun _ => false)) hmem with ⟨q, hq, _⟩
  rw [hs.dir_self] at hq
  cases hq

section

variable (hs : DeleteStep fam σ σ' o now attributes e b) (h : Sound fam σ.state σ.dir)
  (h' : Sound fam σ'.state σ'.dir)

include hs h h'

/-- The items that move are those whose parent goes away. -/
theorem DeleteStep.mem_departing_iff {e' : Entry} (hx : σ.dir x = some e') :
    x ∈ (departing fam (σ.state.setInfo o attributes) e.type b o).map Prod.snd ↔
      σ.state.net.netof x = some o := by
  rcases h.wf.filing with ⟨r, hfile⟩
  have huniv := hs.universeNet_ne h'
  constructor
  · intro hmem
    rcases mem_map.1 hmem with ⟨m, hm, rfl⟩
    have hxo := (hs.withdrawn.located.departing_filed hfile hs.filed huniv hm).1
    unfold departing leaving at hmem
    split at hmem
    · rename_i htype
      split at hmem
      · rename_i hfirst
        have hloc := hs.withdrawn.located
        have hdrop := hfile.drop hs.filed hloc huniv
        rw [htype] at hdrop
        have hlt : σ.state.tree.bits b < fam.bits := by
          have hlisted : o ∈ σ.state.tree.items .net b := mem_of_mem_head? hfirst
          exact hfile.bits_of_mem_items hloc.mem hlisted
        have hzone := (hdrop.mem_contents_snd_iff hloc.mem hlt
          ((Function.update_of_ne hxo _ _).trans hx)).1 hmem
        -- The block itself carries a net as long as `o` is there.
        have hzone' : InZone σ.state.tree (fun b a => σ.state.tree.Covers a b) b e' := by
          refine ⟨hzone.1, hzone.2.1, fun c hc => ?_⟩
          by_cases hcb : c = b
          · rw [hcb]
          · exact hzone.2.2 c ((netBlock_setItems_of_ne hcb).2 hc)
        have hne : σ.state.tree.items .net b ≠ [] :=
          ne_nil_of_mem (mem_of_mem_head? hfirst)
        rw [(h.parent hx).unique hfile.shape (isParent_of_inZone hzone' hne)]
        exact hfirst
      · cases hmem
    · cases hmem
  · intro hnetof
    have hxo : x ≠ o := by
      rintro rfl
      have hpar := h.parent hx
      rw [hnetof] at hpar
      exact hpar.ne_self hfile hx rfl
    by_contra hmem
    have hafter := hs.withdrawn.netof x
    rw [if_neg hxo, if_neg hmem] at hafter
    exact h'.netof_ne hs.dir_self x (hafter.trans hnetof)

lemma DeleteStep.departing_filed :
    ∀ m ∈ departing fam (σ.state.setInfo o attributes) e.type b o,
      m.2 ≠ o ∧ m.2 ∈ σ.dir.ofType m.1 := by
  rcases h.wf.filing with ⟨r, hfile⟩
  exact fun m hm =>
    hs.withdrawn.located.departing_filed hfile hs.filed (hs.universeNet_ne h') hm

/-- The books after the moves of a deletion, before the item itself leaves. -/
theorem DeleteStep.closed {moved : NetData}
    (hmoved : moved = moveAll (σ.state.setInfo o attributes).net
      (heir (σ.state.setInfo o attributes) b o)
      (departing fam (σ.state.setInfo o attributes) e.type b o)) :
    ∃ nd, nd.account = moved.account ∧ (∀ type, nd.tally type = moved.tally type) ∧
      nd.netRanges = moved.netRanges ∧ nd.info = (σ.state.setInfo o attributes).net.info ∧
      σ'.state.net = inetSetNetof nd o e.type none := by
  subst hmoved
  refine hs.withdrawn.closed (fun x _ => h'.netof_ne hs.dir_self x) ?_
    fun m hm => (hs.departing_filed h h' m hm).1
  intro (hself : σ.state.net.netof o = some o)
  rcases h.wf.filing with ⟨r, hfile⟩
  have hpar := h.parent hs.filed
  rw [hself] at hpar
  exact hpar.ne_self hfile hs.filed rfl

end

end Delete

end Inet
end Unameit
