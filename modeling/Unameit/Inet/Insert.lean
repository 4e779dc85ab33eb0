import Unameit.Inet.Prefix
import Unameit.Inet.Reparent

/-!
# Inet.Insert — filing an item

`Inet_Insert` finds the block for a prefix, digs down to it when it does not exist, and files the
item there.  A net that is the first one of its block takes over the contents of the block.

`Filing.placed` collects what is known when the item is about to be filed, `Filing.add` and
`Adopted` say what filing does to the tree and to the parent nets, and `inetInsert_wellFormed` is
the result for nodes and nets.
-/

namespace Unameit
namespace Inet

open HoleSeq (nth)
open BitStream (Agree)
open Function (update update_self update_of_ne)
open List

/-! ## Listing one more item -/

variable {type : InetObjType} {c x r o : DbObject} {p : InetPrefix} {net : Option DbObject}
  {fam : Family} {st : State} {T : Coverage} {dir : Directory} {e : Entry}

variable {t : Tree} {b : DbObject}

section Add

@[simp] lemma setItems_self (t : Tree) (type : InetObjType) (b : DbObject) (l : List DbObject) :
    (t.setItems type b l).items type b = l := by
  simp [Tree.setItems]

lemma setItems_of_ne (t : Tree) {type' : InetObjType} (l : List DbObject)
    (h : type' ≠ type ∨ c ≠ b) : (t.setItems type b l).items type' c = t.items type' c := by
  by_cases htype : type' = type
  · subst htype
    have hc : c ≠ b := h.resolve_left fun hne => hne rfl
    simp [Tree.setItems, update_of_ne hc]
  · simp [Tree.setItems, update_of_ne htype]

lemma mem_setItems_append :
    x ∈ (t.setItems e.type b (t.items e.type b ++ [o])).items type c ↔
      x ∈ t.items type c ∨ (x = o ∧ type = e.type ∧ c = b) := by
  by_cases h : type ≠ e.type ∨ c ≠ b
  · rw [setItems_of_ne t _ h]
    constructor
    · exact .inl
    · rintro (hx | ⟨_, htype, hc⟩)
      · exact hx
      · exact absurd h (by simp [htype, hc])
  · obtain ⟨rfl, rfl⟩ : type = e.type ∧ c = b := by tauto
    simp

/-- Another list for one block, which does not change the first item of the root block. -/
theorem Filing.setItems {dir' : Directory} {a : BitStream} {l : List DbObject}
    (h : Filing fam t r T dir) (hb : T b a) (hnodup : l.Nodup)
    (hfirst : ∀ {u}, t.universeNet = some u → type = .net → (t.items .net b).head? = some u →
      l.head? = some u) (hacc : ∀ {x e}, dir' x = some e → e.Accepted fam)
    (hfiled : ∀ {x e}, dir' x = some e → ∃ c, T c e.pfx.stream ∧ t.bits c = e.pfx.bits ∧
      x ∈ (t.setItems type b l).items e.type c)
    (honly : ∀ {a c ty x}, T c a → x ∈ (t.setItems type b l).items ty c →
      ∃ p, dir' x = some ⟨ty, p⟩ ∧ T c p.stream ∧ t.bits c = p.bits) :
    Filing fam (t.setItems type b l) r T dir' := by
  refine
    { shape := ⟨h.shape.root, h.shape.cover, h.shape.fits⟩
      universe_first := ?_
      accepted := hacc
      filed := hfiled
      filed_only := honly
      listed_once := ?_
      storage := { h.storage with blank_items := ?_ } }
  · rcases h.universe_first with ⟨u, hu, hhead⟩
    refine ⟨u, hu, ?_⟩
    by_cases hroot : InetObjType.net ≠ type ∨ r ≠ b
    · rw [inetFirstItem, setItems_of_ne t _ hroot]
      exact hhead
    · obtain ⟨rfl, rfl⟩ : InetObjType.net = type ∧ r = b := by tauto
      rw [inetFirstItem, setItems_self]
      exact hfirst hu rfl hhead
  · intro a c ty hc
    by_cases hother : ty ≠ type ∨ c ≠ b
    · rw [setItems_of_ne t _ hother]
      exact h.listed_once ty hc
    · obtain ⟨rfl, rfl⟩ : ty = type ∧ c = b := by tauto
      rw [setItems_self]
      exact hnodup
  · intro x ty hx
    rw [setItems_of_ne]
    · exact h.storage.blank_items ty hx
    · refine .inr ?_
      rintro rfl
      exact h.storage.outside hx hb

/-- An item that was not filed is added to the list of the block at its prefix. -/
theorem Filing.add (h : Filing fam t r T dir) (hnew : dir o = none) (hacc : e.Accepted fam)
    (hb : T b e.pfx.stream) (hbits : t.bits b = e.pfx.bits) :
    Filing fam (t.setItems e.type b (t.items e.type b ++ [o])) r T (update dir o (some e)) := by
  have hlisted : ∀ {a c type}, T c a → o ∉ t.items type c := by
    intro a c type hc ho
    rcases h.filed_only hc ho with ⟨p, hdir, _⟩
    rw [hnew] at hdir
    cases hdir
  refine h.setItems hb ?_ (fun _ htype hhead => ?_) ?_ ?_ ?_
  · rw [nodup_append]
    refine ⟨h.listed_once _ hb, nodup_singleton o, ?_⟩
    intro x hx y hy hxy
    rw [mem_singleton] at hy
    exact hlisted hb (hy ▸ hxy ▸ hx)
  · rw [htype, head?_append, hhead]
    rfl
  · intro x e' hx
    rcases dir_update_some hx with ⟨_, rfl⟩ | ⟨_, hx⟩
    · exact hacc
    · exact h.accepted hx
  · intro x e' hx
    rcases dir_update_some hx with ⟨rfl, rfl⟩ | ⟨_, hx⟩
    · exact ⟨b, hb, hbits, mem_setItems_append.2 (.inr ⟨rfl, rfl, rfl⟩)⟩
    · rcases h.filed hx with ⟨c, hc, hcbits, hmem⟩
      exact ⟨c, hc, hcbits, mem_setItems_append.2 (.inl hmem)⟩
  · intro a c type x hc hx
    rcases mem_setItems_append.1 hx with hold | ⟨rfl, rfl, rfl⟩
    · rcases h.filed_only hc hold with ⟨p, hdir, hmem⟩
      refine ⟨p, ?_, hmem⟩
      rw [update_of_ne]
      · exact hdir
      · rintro rfl
        exact hlisted hc hold
    · exact ⟨e.pfx, update_self _ _ _, hb, hbits⟩

/-- Only the first net of a block matters. -/
theorem isParent_setItems_of_head (type : InetObjType) (l : List DbObject)
    (hkeep : type = .net → l.head? = (t.items .net b).head?) (e : Entry) (net : Option DbObject) :
    IsParent (t.setItems type b l) T e net ↔ IsParent t T e net := by
  have hfirst : ∀ c, inetFirstItem (t.setItems type b l) c .net = inetFirstItem t c .net := by
    intro c
    by_cases hother : InetObjType.net ≠ type ∨ c ≠ b
    · rw [inetFirstItem, setItems_of_ne t _ hother, inetFirstItem]
    · obtain ⟨rfl, rfl⟩ : InetObjType.net = type ∧ c = b := by tauto
      rw [inetFirstItem, setItems_self, hkeep rfl, inetFirstItem]
  refine IsParent.congr ?_ (fun _ _ => rfl) (fun c _ => hfirst c)
  intro c
  have hnil : ∀ t' : Tree, t'.items .net c ≠ [] ↔ inetFirstItem t' c .net ≠ none := by
    intro t'
    rw [inetFirstItem, ne_eq, ne_eq, head?_eq_none_iff]
  unfold NetBlock
  rw [hnil, hnil, hfirst]
  rfl

end Add

/-! ## Longest-prefix matches of prefixes -/

section Parent

/-- What `Inet_Find` returns is the parent of a node or a range at the prefix. -/
theorem Found.isParent (h : Shape fam t r T) {blk : InetBlock} (hf : Found t r T p net blk)
    (htype : type ≠ .net) : IsParent t T ⟨type, p⟩ net := by
  rcases hf.net_deepest h with ⟨c, ⟨⟨hc, hle, hne⟩, hmax⟩, hfirst⟩
  have habove : ∀ n, (Entry.mk type p).Above n ↔ n ≤ p.bits := by
    intro n
    rw [Entry.Above, if_neg htype]
  refine .inl ⟨c, ⟨⟨hc, (habove _).2 hle, hne⟩, ?_⟩, hfirst⟩
  rintro c' ⟨hc', hab, hne'⟩
  exact hmax c' ⟨hc', (habove _).1 hab, hne'⟩

/-- It is the parent of a net at the prefix too, as long as no net has this prefix. -/
theorem Found.isParent_net (h : Shape fam t r T) {blk : InetBlock} (hf : Found t r T p net blk)
    (hnone : ∀ c, T c p.stream → t.bits c = p.bits → t.items .net c = []) :
    IsParent t T ⟨.net, p⟩ net := by
  rcases hf.net_deepest h with ⟨c, ⟨⟨hc, hle, hne⟩, hmax⟩, hfirst⟩
  have hlt : t.bits c < p.bits := lt_of_le_of_ne hle fun heq => hne (hnone c hc heq)
  refine .inl ⟨c, ⟨⟨hc, hlt, hne⟩, ?_⟩, hfirst⟩
  rintro c' ⟨hc', hab, hne'⟩
  exact hmax c' ⟨hc', Entry.Above.le hab, hne'⟩

lemma IsParent.of_same_block (h : Shape fam t r T) {q : InetPrefix} (hp : T b p.stream)
    (hpb : t.bits b = p.bits) (hq : T b q.stream) (hqb : t.bits b = q.bits)
    (hparent : IsParent t T ⟨.net, q⟩ net) : IsParent t T ⟨.net, p⟩ net := by
  have hlen : p.bits = q.bits := hpb.symm.trans hqb
  refine (IsParent.congr (fun c => ?_) (fun _ _ => rfl) (fun _ _ => rfl)).2 hparent
  have hmem : t.bits c < p.bits → (T c q.stream ↔ T c p.stream) := by
    intro hlt
    have hle : t.bits c ≤ t.bits b := by omega
    exact ⟨fun hc => h.cover.mem_of_le hc hq hle hp, fun hc => h.cover.mem_of_le hc hp hle hq⟩
  have habove : ∀ q' n, (Entry.mk .net q').Above n ↔ n < q'.bits := fun q' n => by
    rw [Entry.Above, if_pos rfl]
  unfold NetBlock
  rw [habove, habove]
  constructor
  · rintro ⟨hc, hlt, hne⟩
    exact ⟨(hmem hlt).2 hc, hlen ▸ hlt, hne⟩
  · rintro ⟨hc, hlt, hne⟩
    exact ⟨(hmem (hlen ▸ hlt)).1 hc, hlen ▸ hlt, hne⟩

end Parent

/-! ## The first net of a block -/

section Adopt

lemma netBlock_adopt_iff (hnil : t.items .net b = []) (c : DbObject) :
    NetBlock (t.setItems .net b [o]) T e c ↔
      NetBlock t T e c ∨ (c = b ∧ T b e.pfx.stream ∧ e.Above (t.bits b)) := by
  unfold NetBlock
  by_cases hc : c = b
  · subst hc
    rw [hnil]
    constructor
    · rintro ⟨hmem, habove, _⟩
      exact .inr ⟨rfl, hmem, habove⟩
    · rintro (⟨_, _, hne⟩ | ⟨_, hmem, habove⟩)
      · exact absurd rfl hne
      · exact ⟨hmem, habove, by simp⟩
  · rw [setItems_of_ne t _ (.inr hc)]
    constructor
    · exact .inl
    · rintro (h | ⟨heq, _⟩)
      · exact h
      · exact absurd heq hc

lemma isParent_adopt_of_inZone (hnil : t.items .net b = []) (hzone : InZone t T b e) :
    IsParent (t.setItems .net b [o]) T e (some o) := by
  rcases hzone with ⟨hmem, habove, hshort⟩
  refine .inl ⟨b, ⟨(netBlock_adopt_iff hnil b).2 (.inr ⟨rfl, hmem, habove⟩), ?_⟩, ?_⟩
  · intro c hc
    rcases (netBlock_adopt_iff hnil c).1 hc with hc | ⟨rfl, _⟩
    · exact hshort c hc
    · exact le_refl _
  · rw [inetFirstItem, setItems_self]
    rfl

lemma isParent_adopt_of_not_inZone (hnil : t.items .net b = []) (hzone : ¬ InZone t T b e)
    (h : IsParent t T e net) : IsParent (t.setItems .net b [o]) T e net := by
  have hfirst : ∀ c, NetBlock t T e c →
      inetFirstItem (t.setItems .net b [o]) c .net = inetFirstItem t c .net := by
    intro c hc
    have hcb : c ≠ b := by
      rintro rfl
      exact hc.2.2 hnil
    rw [inetFirstItem, setItems_of_ne t _ (.inr hcb), inetFirstItem]
  by_cases hover : T b e.pfx.stream ∧ e.Above (t.bits b)
  · -- A longer match hides the new net.
    rcases h with ⟨c, ⟨hc, hmax⟩, hnet⟩ | ⟨hnone, _⟩
    · have hlong : t.bits b < t.bits c := by
        by_contra hle
        refine hzone ⟨hover.1, hover.2, fun c' hc' => ?_⟩
        exact le_trans (hmax c' hc') (Nat.le_of_not_lt hle)
      refine .inl ⟨c, ⟨(netBlock_adopt_iff hnil c).2 (.inl hc), ?_⟩, ?_⟩
      · intro c' hc'
        rcases (netBlock_adopt_iff hnil c').1 hc' with hc' | ⟨rfl, _⟩
        · exact hmax c' hc'
        · exact le_of_lt hlong
      · rw [hfirst c hc]
        exact hnet
    · exact absurd ⟨hover.1, hover.2, fun c hc => absurd hc (hnone c)⟩ hzone
  · have hsame : ∀ c, NetBlock (t.setItems .net b [o]) T e c ↔ NetBlock t T e c := by
      intro c
      rw [netBlock_adopt_iff hnil]
      exact ⟨fun hc => hc.resolve_right fun hnew => hover hnew.2, .inl⟩
    exact (IsParent.congr hsame (fun _ _ => rfl) hfirst).2 h

end Adopt

/-! ## Finding the place -/

/-- The items that a new item takes over, in the order in which the walk meets them: those of the
block at the prefix, when the item is the first net of the block. -/
def joining (fam : Family) (st : State) (p : InetPrefix) (type : InetObjType) :
    List (InetObjType × DbObject) :=
  match inetFind fam st.tree p with
  | (_, none) => []
  | (_, some found) =>
    let (st, blk) := inetInsertLoop fam p p.bits st found
    if type = .net ∧ inetFirstItem st.tree blk.block .net = none then
      st.tree.contents fam (fam.bits + 1) blk.block true
    else []

/-- What is known when `Inet_Insert` has found or created the block `b` for the prefix `p`: the
family has the same content as before, and `net` is what `Inet_Find` returned. -/
structure Placed (fam : Family) (p : InetPrefix) (st st₁ : State) (r : DbObject)
    (T T₁ : Coverage) (dir : Directory) (net : Option DbObject)
    (b : DbObject) : Prop where
  filing : Filing fam st₁.tree r T₁ dir
  dug : Dug fam p st st₁ T T₁
  mem : T₁ b p.stream
  bits : st₁.tree.bits b = p.bits
  found : ∃ blk, Found st.tree r T p net blk

lemma Filing.placed (h : Filing fam st.tree r T dir) (hp : p.bits ≤ fam.bits)
    (halign : p.AlignedAt p.bits ∨ ∃ b, Reaches fam st.tree p b) :
    ∃ st₁ T₁ net b, Placed fam p st st₁ r T T₁ dir net b ∧
      (∀ type o, inetInsert fam st p type o = inetInsertAt fam st₁ ⟨p.bits, b⟩ net type o) ∧
      ∀ type, joining fam st p type =
        if type = .net ∧ st₁.tree.items .net b = [] then
          st₁.tree.contents fam (fam.bits + 1) b true
        else [] := by
  rcases h.find p with ⟨net, found, hfind, hfound⟩
  have halign' : found.bits < p.bits → p.AlignedAt p.bits := by
    intro hlt
    refine halign.resolve_right ?_
    rintro ⟨b, hb⟩
    rw [Reaches, hfind] at hb
    rw [Option.some.inj hb] at hlt
    exact lt_irrefl _ hlt
  rcases inetInsertLoop_dug p.bits h (Nat.sub_le _ _) hfound.mem hfound.bits hfound.le hp
    hfound.blocked halign' with ⟨T₁, hfile, hdug, hmem, hlen, hbits⟩
  rcases hloop : inetInsertLoop fam p p.bits st found with ⟨st₁, ⟨n, b⟩⟩
  rw [hloop] at hfile hdug hmem hlen hbits
  have hn : n = p.bits := hlen
  refine ⟨st₁, T₁, net, b, ⟨hfile, hdug, hmem, hbits, found, hfound⟩, fun type o => ?_,
    fun type => ?_⟩
  · rw [inetInsert, hfind]
    simp only [hloop, hn]
  · rw [joining, hfind]
    simp only [hloop, inetFirstItem, head?_eq_none_iff]

variable {st₁ : State} {T₁ : Coverage}

namespace Placed

variable (h : Placed fam p st st₁ r T T₁ dir net b)

include h

/-- The net that was found is the parent of the new item, unless it is a net and the block
already carries one. -/
theorem isParent (hst : Filing fam st.tree r T dir)
    (htype : type ≠ .net ∨ st₁.tree.items .net b = []) : IsParent st₁.tree T₁ ⟨type, p⟩ net := by
  rcases h.found with ⟨blk, hfound⟩
  rw [h.dug.isParent_iff hst.storage]
  by_cases hnet : type = .net
  · subst hnet
    refine hfound.isParent_net hst.shape fun c hc hbits => ?_
    have hcb : c = b := by
      refine h.filing.shape.cover.unique (h.dug.mem hc) h.mem ?_
      rw [layout_len, h.dug.bits hc, h.bits]
      exact hbits
    have hnil := htype.resolve_left fun hne => hne rfl
    rw [← h.dug.items, hcb]
    exact hnil
  · exact hfound.isParent hst.shape hnet

/-- When the block carries a net, `Inet_Find` returned its first one. -/
theorem net_eq (hst : Filing fam st.tree r T dir)
    (hne : st₁.tree.items .net b ≠ []) : net = inetFirstItem st₁.tree b .net := by
  rcases h.found with ⟨blk, hfound⟩
  rcases hfound.net_deepest hst.shape with ⟨c, ⟨⟨hc, hle, hcne⟩, hmax⟩, hfirst⟩
  rw [h.dug.items] at hne
  have hb : T b p.stream := by
    by_contra hn
    exact hne (hst.storage.blank_items _ (h.dug.fresh h.mem hn))
  have hbits : st.tree.bits b = p.bits := by
    rw [← h.dug.bits hb]
    exact h.bits
  have hcb : c = b := by
    refine hst.shape.cover.unique hc hb (le_antisymm ?_ ?_)
    · rw [layout_len, hbits]
      exact hle
    · exact hmax b ⟨hb, le_of_eq hbits, hne⟩
  rw [hfirst, hcb, inetFirstItem, inetFirstItem, h.dug.items]

/-- An item moves exactly when its entry is taken over by the new net. -/
theorem mem_contents_iff (hlt : p.bits < fam.bits) (hx : dir x = some e) :
    x ∈ (st₁.tree.contents fam (fam.bits + 1) b true).map Prod.snd ↔
      InZone st₁.tree T₁ b e :=
  h.filing.mem_contents_snd_iff h.mem (h.bits.symm ▸ hlt) hx

end Placed

/-! ## Filing the item -/

structure Inserted (fam : Family) (st st' : State) (r : DbObject)
    (T T' : Coverage) (dir : Directory) (o : DbObject) (e : Entry) : Prop where
  filing : Filing fam st'.tree r T' (update dir o (some e))
  parent : ∀ {x e'}, dir x = some e' → IsParent st.tree T e' (st.net.netof x) →
    IsParent st'.tree T' e' (st'.net.netof x)
  parent_new : IsParent st'.tree T' e (st'.net.netof o)

structure Enrolled (fam : Family) (st st' : State) (T T' : Coverage)
    (dir : Directory) (e : Entry) (o b : DbObject) (net : Option DbObject)
    (moves : List (InetObjType × DbObject)) : Prop where
  universeNet : st'.tree.universeNet = st.tree.universeNet
  mem : T' b e.pfx.stream
  bits_block : st'.tree.bits b = e.pfx.bits
  items : st'.tree.items = (st.tree.setItems e.type b (st.tree.items e.type b ++ [o])).items
  bits : ∀ {c a}, T c a → st'.tree.bits c = st.tree.bits c
  fresh : ∀ {c a}, T' c a → ¬ T c a → st.tree.Spare c
  way : ∀ {c a}, T' c a → ¬ T c a → T' c e.pfx.stream
  gone : ∀ {c a}, T c a → ¬ T' c a → ∀ type, st.tree.items type c = []
  stamp : ∀ {c}, ¬ st.tree.Spare c → st'.tree.stamp c = st.tree.stamp c
  stamp_new : ∀ {c a}, T' c a → ¬ T c a → st'.tree.bits c = fam.bits →
    st'.tree.stamp c = inetMaxStamp
  natural_new : ∀ {c a}, T' c a → ¬ T c a → st'.tree.bits c % 4 = 0 ∨ c = b
  blockCheck : st'.blockCheck =
    if e.type ≠ .range ∧ (st.tree.items e.type b ++ [o]).length = 2 then
      inetCheck st.blockCheck b e.type
    else st.blockCheck
  moved : ∀ m ∈ moves, ∃ q, dir m.2 = some ⟨m.1, q⟩
  net : ∃ nd, Renewed st.tree st.net nd ∧
    st'.net = inetSetNetof
      (moveAll (if e.type = .node then nd else nd.setItemBlock o (some b)) (some o) moves)
      o e.type net

namespace Placed

lemma ne_of_dir (hnew : dir o = none) (hx : dir x = some e) : x ≠ o := by
  rintro rfl
  rw [hnew] at hx
  cases hx

lemma insertAt_further (hne : st₁.tree.items .net b ≠ []) (o : DbObject) :
    inetInsertAt fam st₁ ⟨p.bits, b⟩ net .net o =
      inetAdd
        { st₁ with
          net := inetSetNetof (st₁.net.setItemBlock o (some b)) o .net
            (net.bind st₁.net.netof) }
        b .net o := by
  have hfirst : ¬ inetFirstItem st₁.tree b .net = none := by
    rw [inetFirstItem, head?_eq_none_iff]
    exact hne
  simp only [inetInsertAt, hfirst, if_false]
  rfl

variable (h : Placed fam p st st₁ r T T₁ dir net b)

include h

lemma parent_placed (hst : Filing fam st.tree r T dir)
    (hparent : IsParent st.tree T e (st.net.netof x)) :
    IsParent st₁.tree T₁ e (st₁.net.netof x) := by
  rw [h.dug.isParent_iff hst.storage, h.dug.net.netof]
  exact hparent

/-- Filing a node, a range or a further net of a block: only the new item gets a parent. -/
theorem inserted_plain (hst : Filing fam st.tree r T dir) (hnew : dir o = none)
    (hacc : (Entry.mk type p).Accepted fam) (hkeep : type ≠ .net ∨ st₁.tree.items .net b ≠ [])
    (nd : NetData) (hnd : nd.netof = st₁.net.netof) {net' : Option DbObject}
    (hparent : IsParent st₁.tree T₁ ⟨type, p⟩ net') :
    Inserted fam st (inetAdd { st₁ with net := inetSetNetof nd o type net' } b type o) r T T₁ dir o
      ⟨type, p⟩ := by
  have hnetof : (inetSetNetof nd o type net').netof = update st₁.net.netof o net' := by
    rw [← hnd]
    rfl
  have hhead : type = .net →
      (st₁.tree.items type b ++ [o]).head? = (st₁.tree.items .net b).head? := by
    rintro rfl
    exact head?_append_of_ne_nil _ (hkeep.resolve_left fun hc => hc rfl)
  refine ⟨h.filing.add hnew hacc h.mem h.bits, ?_, ?_⟩
  · intro x e hx hpar
    show IsParent _ T₁ e ((inetSetNetof nd o type net').netof x)
    rw [hnetof, update_of_ne (ne_of_dir hnew hx)]
    exact (isParent_setItems_of_head type _ hhead e _).2 (h.parent_placed hst hpar)
  · show IsParent _ T₁ _ ((inetSetNetof nd o type net').netof o)
    rw [hnetof, update_self]
    exact (isParent_setItems_of_head type _ hhead _ _).2 hparent

/-- The first net of a block: the walk recycles what is unused and moves the rest, and then the net
itself is filed. -/
theorem insertAt_first (hnil : st₁.tree.items .net b = []) (o : DbObject) :
    ∃ t, Swept fam st₁.tree t T₁ (st₁.tree.Freed b) ∧
      inetInsertAt fam st₁ ⟨p.bits, b⟩ net .net o =
        { st₁ with
          tree := t.setItems .net b [o]
          net := inetSetNetof
            (moveAll (st₁.net.setItemBlock o (some b)) (some o)
              (st₁.tree.contents fam (fam.bits + 1) b true)) o .net net } := by
  have hfirst : inetFirstItem st₁.tree b .net = none := by
    rw [inetFirstItem, hnil]
    rfl
  have hwalk := inetReparent_spec h.filing (some o) h.mem (st₁.net.setItemBlock o (some b))
  rw [h.bits] at hwalk
  rcases hres : inetReparent fam (some o) (fam.bits + 1) st₁.tree
    (st₁.net.setItemBlock o (some b)) ⟨p.bits, b⟩ true with ⟨used, t, nd'⟩
  rw [hres] at hwalk
  have hsw : Swept fam st₁.tree t T₁ (st₁.tree.Freed b) := hwalk.tree.congr fun c => by simp
  have hnet : nd' = moveAll (st₁.net.setItemBlock o (some b)) (some o)
      (st₁.tree.contents fam (fam.bits + 1) b true) := hwalk.net
  refine ⟨t, hsw, ?_⟩
  simp only [inetInsertAt, hfirst, if_true, hres, inetAdd, hsw.items, hnil, hnet]
  rfl

variable {st' : State}

/-- The tree below the first net of a block, after the unused blocks are recycled. -/
theorem filing_swept (hsw : Swept fam st₁.tree t T₁ (st₁.tree.Freed b)) :
    Filing fam t r (sweptCover T₁ (st₁.tree.Freed b)) dir ∧
      sweptCover T₁ (st₁.tree.Freed b) b p.stream := by
  have hfreed : ∀ {c}, st₁.tree.Freed b c → _ := fun hc =>
    h.filing.shape.bits_lt_of_freed h.mem hc
  refine ⟨hsw.filing h.filing (fun hc => (hfreed hc).2.2 rfl) (fun hc => (hfreed hc).1)
    (fun hc => hc.dead) (fun hc hs => hc.sub hs), h.mem, ?_⟩
  exact fun hc => lt_irrefl _ (hfreed hc).2.1

/-- Recycling unused blocks does not change which entries a net takes over. -/
theorem inZone_swept_iff (hsw : Swept fam st₁.tree t T₁ (st₁.tree.Freed b)) (e : Entry) :
    InZone t (sweptCover T₁ (st₁.tree.Freed b)) b e ↔ InZone st₁.tree T₁ b e := by
  have hnb := (hsw.shrunk fun hc => hc.dead).netBlock_iff e
  have hb := (h.filing_swept hsw).2.2
  unfold InZone
  rw [hsw.bits]
  constructor
  · rintro ⟨hmem, habove, hshort⟩
    exact ⟨hmem.1, habove, fun c hc => hshort c ((hnb c).2 hc)⟩
  · rintro ⟨hmem, habove, hshort⟩
    exact ⟨⟨hmem, hb⟩, habove, fun c hc => hshort c ((hnb c).1 hc)⟩

lemma inserted_first (hst : Filing fam st.tree r T dir) (hnew : dir o = none)
    (hacc : (Entry.mk .net p).Accepted fam) (hnil : st₁.tree.items .net b = [])
    (hsw : Swept fam st₁.tree t T₁ (st₁.tree.Freed b)) (htree : st'.tree = t.setItems .net b [o])
    (hnet : st'.net = inetSetNetof (moveAll (st₁.net.setItemBlock o (some b)) (some o)
      (st₁.tree.contents fam (fam.bits + 1) b true)) o .net net) :
    Inserted fam st st' r T (sweptCover T₁ (st₁.tree.Freed b)) dir o ⟨.net, p⟩ := by
  rcases h.filing_swept hsw with ⟨hfile, hb⟩
  have hlt : p.bits < fam.bits := hacc.2.1
  have hnil' : t.items .net b = [] := by
    rw [hsw.items]
    exact hnil
  have hbits : t.bits b = p.bits := by
    rw [hsw.bits]
    exact h.bits
  have hnetof : ∀ x, x ≠ o → st'.net.netof x =
      if x ∈ (st₁.tree.contents fam (fam.bits + 1) b true).map Prod.snd then some o
      else st₁.net.netof x := by
    intro x hx
    rw [hnet]
    show update (moveAll _ _ _).netof o net x = _
    rw [update_of_ne hx, netof_moveAll]
    rfl
  refine ⟨?_, ?_, ?_⟩
  · have hadd := hfile.add hnew hacc hb hbits
    rw [hnil'] at hadd
    rw [htree]
    exact hadd
  · intro x e hx hpar
    rw [hnetof x (ne_of_dir hnew hx), htree]
    by_cases hin : x ∈ (st₁.tree.contents fam (fam.bits + 1) b true).map Prod.snd
    · rw [if_pos hin]
      exact isParent_adopt_of_inZone hnil'
        ((h.inZone_swept_iff hsw e).2 ((h.mem_contents_iff hlt hx).1 hin))
    · rw [if_neg hin]
      refine isParent_adopt_of_not_inZone hnil'
        (fun hz => hin ((h.mem_contents_iff hlt hx).2 ((h.inZone_swept_iff hsw e).1 hz))) ?_
      exact ((hsw.shrunk fun hc => hc.dead).isParent_iff e _).2 (h.parent_placed hst hpar)
  · have hself : st'.net.netof o = net := by
      rw [hnet]
      exact update_self _ _ _
    rw [hself, htree]
    refine isParent_adopt_of_not_inZone hnil' ?_ ?_
    · rintro ⟨_, habove, _⟩
      rw [hbits] at habove
      exact lt_irrefl p.bits habove
    · exact ((hsw.shrunk fun hc => hc.dead).isParent_iff _ _).2 (h.isParent hst (.inr hnil))

/-- The parent of the first net of the block is the parent of a further one. -/
theorem isParent_further (hst : Filing fam st.tree r T dir) (hne : st₁.tree.items .net b ≠ [])
    (hnets : ∀ {x q}, dir x = some ⟨.net, q⟩ → IsParent st.tree T ⟨.net, q⟩ (st.net.netof x)) :
    IsParent st₁.tree T₁ ⟨.net, p⟩ (net.bind st₁.net.netof) := by
  rw [h.net_eq hst hne, inetFirstItem]
  cases hl : st₁.tree.items .net b with
  | nil => exact absurd hl hne
  | cons f l =>
    have hf : f ∈ st₁.tree.items .net b := hl ▸ mem_cons_self
    rcases h.filing.filed_only h.mem hf with ⟨q, hq, hqmem, hqbits⟩
    exact IsParent.of_same_block h.filing.shape h.mem h.bits hqmem hqbits
      (h.parent_placed hst (hnets hq))

/-- A new block that is not on a boundary is the block of the prefix. -/
theorem natural_new {a : BitStream} (hc : T₁ c a)
    (hn : ¬ T c a) : st₁.tree.bits c % 4 = 0 ∨ c = b := by
  refine (h.dug.natural_new hc hn).imp_right fun hlen => ?_
  refine h.filing.shape.cover.unique (h.dug.way hc hn) h.mem ?_
  rw [layout_len, h.bits]
  exact hlen

lemma enrolled_plain (type : InetObjType) (net' : Option DbObject) :
    Enrolled fam st
      (inetAdd
        { st₁ with
          net := inetSetNetof
            (if type = .node then st₁.net else st₁.net.setItemBlock o (some b)) o type net' }
        b type o) T T₁ dir ⟨type, p⟩ o b net' [] :=
  { universeNet := h.dug.universeNet
    mem := h.mem
    bits_block := h.bits
    items := by
      show (st₁.tree.setItems type b (st₁.tree.items type b ++ [o])).items = _
      unfold Tree.setItems
      rw [h.dug.items]
    bits := h.dug.bits
    fresh := h.dug.fresh
    way := h.dug.way
    gone := fun hc hn => absurd (h.dug.mem hc) hn
    stamp := h.dug.stamp
    stamp_new := h.dug.stamp_new
    natural_new := h.natural_new
    blockCheck := by
      show (if type ≠ .range ∧ (st₁.tree.items type b ++ [o]).length = 2 then
        inetCheck st₁.blockCheck b type else st₁.blockCheck) = _
      rw [h.dug.items, h.dug.blockCheck]
    moved := fun _ hm => by cases hm
    net := ⟨st₁.net, h.dug.net, rfl⟩ }

lemma enrolled_first (hnil : st₁.tree.items .net b = []) (hsw : Swept fam st₁.tree t T₁ (st₁.tree.Freed b))
    (htree : st'.tree = t.setItems .net b [o])
    (hnet : st'.net = inetSetNetof (moveAll (st₁.net.setItemBlock o (some b)) (some o)
      (st₁.tree.contents fam (fam.bits + 1) b true)) o .net net)
    (hcheck : st'.blockCheck = st₁.blockCheck) :
    Enrolled fam st st' T (sweptCover T₁ (st₁.tree.Freed b)) dir ⟨.net, p⟩ o b net
      (st₁.tree.contents fam (fam.bits + 1) b true) := by
  have hshr := hsw.shrunk fun hc => hc.dead
  have hempty : st.tree.items .net b = [] := by
    rw [← h.dug.items]
    exact hnil
  have hbits : st'.tree.bits = st₁.tree.bits := by
    rw [htree]
    exact hsw.bits
  have hstamp : st'.tree.stamp = st₁.tree.stamp := by
    rw [htree]
    exact hshr.stamp
  refine
    { universeNet := ?_
      mem := (h.filing_swept hsw).2
      bits_block := ?_
      items := ?_
      bits := fun hc => by rw [hbits, h.dug.bits hc]
      fresh := fun hc hn => h.dug.fresh hc.1 hn
      way := fun hc hn => ⟨h.dug.way hc.1 hn, hc.2⟩
      gone := ?_
      stamp := fun hc => by rw [hstamp, h.dug.stamp hc]
      stamp_new := ?_
      natural_new := ?_
      blockCheck := ?_
      moved := fun m hm => h.filing.dir_of_mem_contents _ h.mem hm
      net := ⟨st₁.net, h.dug.net, hnet⟩ }
  · rw [htree]
    exact hshr.universeNet.trans h.dug.universeNet
  · rw [hbits]
    exact h.bits
  · rw [htree, hempty]
    show (t.setItems .net b [o]).items = (st.tree.setItems .net b [o]).items
    unfold Tree.setItems
    rw [hsw.items, h.dug.items]
  · intro c a hc hn type
    have hfreed : st₁.tree.Freed b c := not_not.1 fun hF => hn ⟨h.dug.mem hc, hF⟩
    rw [← h.dug.items]
    exact hfreed.dead c .refl type
  · intro c a hc hn hfull
    rw [hbits] at hfull
    rw [hstamp]
    exact h.dug.stamp_new hc.1 hn hfull
  · intro c a hc hn
    rw [hbits]
    exact h.natural_new hc.1 hn
  · rw [hcheck, h.dug.blockCheck, hempty]
    simp

lemma inserted (hst : Filing fam st.tree r T dir)
    (hnew : dir o = none) (hacc : (Entry.mk type p).Accepted fam)
    (hnets : ∀ {x q}, dir x = some ⟨.net, q⟩ → IsParent st.tree T ⟨.net, q⟩ (st.net.netof x)) :
    ∃ T' net', Inserted fam st (inetInsertAt fam st₁ ⟨p.bits, b⟩ net type o) r T T' dir o
        ⟨type, p⟩ ∧
      Enrolled fam st (inetInsertAt fam st₁ ⟨p.bits, b⟩ net type o) T T' dir ⟨type, p⟩ o b net'
        (if type = .net ∧ st₁.tree.items .net b = [] then
          st₁.tree.contents fam (fam.bits + 1) b true else []) := by
  cases type with
  | node =>
    have hne : InetObjType.node ≠ .net := by decide
    exact ⟨T₁, net, h.inserted_plain hst hnew hacc (.inl hne) st₁.net rfl
      (h.isParent hst (.inl hne)), h.enrolled_plain .node net⟩
  | range =>
    have hne : InetObjType.range ≠ .net := by decide
    exact ⟨T₁, net, h.inserted_plain hst hnew hacc (.inl hne)
      (st₁.net.setItemBlock o (some b)) rfl (h.isParent hst (.inl hne)),
      h.enrolled_plain .range net⟩
  | net =>
    by_cases hnil : st₁.tree.items .net b = []
    · rcases h.insertAt_first hnil o with ⟨t, hsw, hat⟩
      rw [if_pos ⟨rfl, hnil⟩, hat]
      exact ⟨_, net, h.inserted_first hst hnew hacc hnil hsw rfl rfl,
        h.enrolled_first hnil hsw rfl rfl rfl⟩
    · rw [if_neg fun hc => hnil hc.2, insertAt_further hnil]
      exact ⟨T₁, net.bind st₁.net.netof, h.inserted_plain hst hnew hacc (.inr hnil)
        (st₁.net.setItemBlock o (some b)) rfl (h.isParent_further hst hnil hnets),
        h.enrolled_plain .net _⟩

end Placed

/-- `Inet_Insert` of an item whose block exists or can be dug. -/
theorem Filing.inserted (h : Filing fam st.tree r T dir) (hnew : dir o = none)
    (hacc : e.Accepted fam) (halign : e.pfx.AlignedAt e.pfx.bits ∨ ∃ b, Reaches fam st.tree e.pfx b)
    (hnets : ∀ {x q}, dir x = some ⟨.net, q⟩ → IsParent st.tree T ⟨.net, q⟩ (st.net.netof x)) :
    ∃ T' b net, Inserted fam st (inetInsert fam st e.pfx e.type o) r T T' dir o e ∧
      Enrolled fam st (inetInsert fam st e.pfx e.type o) T T' dir e o b net
        (joining fam st e.pfx e.type) := by
  rcases h.placed hacc.bits_le halign with ⟨st₁, T₁, net, b, hplaced, hins, hjoin⟩
  rcases hplaced.inserted h hnew hacc hnets with ⟨T', net', hres, henr⟩
  rw [hins, hjoin]
  exact ⟨T', b, net', hres, henr⟩

/-! ## The result for nodes and nets -/

/-- The prefix of a node or a net has no bits set up to the next boundary. -/
theorem Entry.Accepted.alignedAt (h : e.Accepted fam) (htype : e.type ≠ .range) :
    e.pfx.AlignedAt e.pfx.bits := by
  rcases e with ⟨type, p⟩
  cases type with
  | net => exact .inr fun k hk _ => h.2.2 k hk
  | node =>
    have hbits : p.bits = fam.bits := h.2
    have := fam_bits fam
    exact .inl (by show p.bits % 4 = 0; omega)
  | range => exact absurd rfl htype

/-- `Inet_Insert` of an item whose block exists or can be dug files exactly one item more. -/
theorem WellFormed.insert (h : WellFormed fam st dir) (hnew : dir o = none) (hacc : e.Accepted fam)
    (halign : e.pfx.AlignedAt e.pfx.bits ∨ ∃ b, Reaches fam st.tree e.pfx b) :
    WellFormed fam (inetInsert fam st e.pfx e.type o) (update dir o (some e)) := by
  rcases h.filing with ⟨r, hst⟩
  rcases hst.inserted hnew hacc halign (fun hx => h.parent hx (by simp)) with
    ⟨T', b, net, hres, _⟩
  refine hres.filing.wellFormed ?_
  intro x e' hx htype
  rcases dir_update_some hx with ⟨rfl, rfl⟩ | ⟨_, hx⟩
  · exact hres.parent_new
  · exact hres.parent hx (h.parent hx htype)

/-- The universe net of a new family, which makes the root block. -/
theorem wellFormed_universe {u : DbObject} (hacc : (Entry.mk .net p).Accepted fam)
    (hbits : p.bits = 0) :
    WellFormed fam (inetInsert fam State.empty p .net u)
      (update (fun _ => none) u (some ⟨.net, p⟩)) := by
  have hitems : ∀ type c, (inetInsertRoot State.empty u).tree.items type c =
      if type = .net ∧ c = 0 then [u] else [] := by
    intro type c
    by_cases hc : c = 0
    · subst hc
      cases type <;> rfl
    · cases type with
      | net => simp [inetInsertRoot, State.empty, Tree.empty, hc]
      | node => simp [inetInsertRoot, State.empty, Tree.empty]
      | range => simp [inetInsertRoot, State.empty, Tree.empty]
  have hlen : ∀ c, (inetInsertRoot State.empty u).tree.bits c = 0 := by
    intro c
    simp [inetInsertRoot, State.empty, Tree.empty]
  have hspare : ∀ {o}, (inetInsertRoot State.empty u).tree.Spare o → o ≠ 0 := by
    rintro o (⟨cls, ho⟩ | hle) rfl
    · cases ho
    · exact absurd hle (Nat.not_succ_le_zero 0)
  have hfile : Filing fam (inetInsertRoot State.empty u).tree 0 (fun c _ => c = 0)
      (update (fun _ => none) u (some ⟨.net, p⟩)) := by
    refine
      { shape := ⟨rfl, ?_, ?_⟩
        universe_first := ⟨u, rfl, rfl⟩
        accepted := ?_
        filed := ?_
        filed_only := ?_
        listed_once := ?_
        storage := ?_ }
    · refine
        { root_len := hlen 0
          root_mem := fun _ => rfl
          agree_of_mem := ?_
          mem_of_agree := fun hb _ => hb
          child_mem := fun _ hs => by cases hs
          parent_of_mem := fun hs hne => absurd hs hne }
      intro c a a' _ _
      rw [layout_len, hlen]
      exact fun k hk => absurd hk (Nat.not_lt_zero k)
    · intro a c i s _ hs
      cases hs
    · intro x e hx
      rcases dir_update_some hx with ⟨_, rfl⟩ | ⟨_, ⟨⟩⟩
      exact hacc
    · intro x e hx
      rcases dir_update_some hx with ⟨rfl, rfl⟩ | ⟨_, ⟨⟩⟩
      exact ⟨0, rfl, (hlen 0).trans hbits.symm, mem_singleton.2 rfl⟩
    · intro a c type x hc hx
      rw [hitems] at hx
      split at hx
      · rename_i hroot
        rw [mem_singleton] at hx
        subst hx
        exact ⟨p, by rw [update_self, hroot.1], hc, (hlen c).trans hbits.symm⟩
      · cases hx
    · intro a c type _
      rw [hitems]
      split
      · exact nodup_singleton u
      · exact nodup_nil
    · exact
        { nodup := fun _ => nodup_nil
          disjoint := fun ho => by cases ho
          created := fun ho => by cases ho
          outside := fun ho => hspare ho
          blank_subs := fun _ _ => rfl
          blank_items := fun type ho => by rw [hitems, if_neg fun hc => hspare ho hc.2] }
  refine hfile.wellFormed ?_
  intro x e hx _
  rcases dir_update_some hx with ⟨rfl, rfl⟩ | ⟨_, ⟨⟩⟩
  refine .inr ⟨fun c hc => ?_, rfl⟩
  have habove : _ < p.bits := hc.2.1
  rw [hbits] at habove
  exact absurd habove (Nat.not_lt_zero _)

/-- Inserting a node or a net into a well-formed family keeps it well formed, with exactly one item
more: every item is found at its own prefix, and every parent is the longest-prefix match for the
new set of nets. -/
theorem inetInsert_wellFormed {fam : Family} {st : State} {dir : Directory} {o : DbObject}
    (info : InetInfo) {p : InetPrefix} (h : WellFormed fam st dir) (hnew : dir o = none)
    (htype : info.objType ≠ .range) (hp : inetInfoPrefix fam st.tree o info = .ok p) :
    WellFormed fam (inetInsert fam st p info.objType o)
      (update dir o (some ⟨info.objType, p⟩)) := by
  have hacc := inetInfoPrefix_accepted hp
  exact h.insert hnew hacc (.inl (hacc.alignedAt htype))

def octetFamily : Family where
  fname := ['o', 'c', 't', 'e', 't']
  octets := 1
  octets_pos := by decide
  nodeAddressAttribute := ['a', 'd', 'd', 'r', 'e', 's', 's']
  netNetofAttribute := ['n', 'e', 't', 'o', 'f']
  netStartAttribute := ['s', 't', 'a', 'r', 't']
  netBitsAttribute := ['b', 'i', 't', 's']
  rangeStartAttribute := ['f', 'i', 'r', 's', 't']
  rangeEndAttribute := ['l', 'a', 's', 't']

def octetUniverse : State :=
  inetInsert octetFamily State.empty ⟨0, [0]⟩ .net 0

lemma octet_net_accepted (bits : ℕ) (x : BitVec 8) (hbits : bits < 8)
    (hoff : ∀ k, bits ≤ k → k < 8 → x.getMsbD k = false) :
    (Entry.mk .net ⟨bits, [x]⟩).Accepted octetFamily := by
  refine ⟨rfl, hbits, fun k hk => ?_⟩
  rcases lt_or_ge k 8 with hlt | hge
  · have hzero : k / 8 = 0 := by omega
    have hmod : k % 8 = k := by omega
    simpa [InetPrefix.stream, hzero, hmod] using hoff k hk hlt
  · exact stream_of_length_le (by simpa using hge)

lemma octetUniverse_wellFormed : WellFormed octetFamily octetUniverse
    (update (fun _ => none) 0 (some ⟨.net, ⟨0, [0]⟩⟩)) :=
  wellFormed_universe (octet_net_accepted 0 0 (by decide) (by decide)) rfl

/-- A net that takes a node over. -/
theorem inetInsert_wellFormed_net :
    WellFormed octetFamily (inetInsert octetFamily
        (inetInsert octetFamily octetUniverse ⟨8, [0x52]⟩ .node 1) ⟨4, [0x50]⟩ .net 2)
      (update (update (update (fun _ => none) 0 (some ⟨.net, ⟨0, [0]⟩⟩)) 1
        (some ⟨.node, ⟨8, [0x52]⟩⟩)) 2 (some ⟨.net, ⟨4, [0x50]⟩⟩)) ∧
    (inetInsert octetFamily (inetInsert octetFamily octetUniverse ⟨8, [0x52]⟩ .node 1)
      ⟨4, [0x50]⟩ .net 2).net.netof 1 = some 2 :=
  ⟨inetInsert_wellFormed (.net ['5', '0'] 4 [] []) (inetInsert_wellFormed (.node ['5', '2'])
    octetUniverse_wellFormed rfl (by decide) rfl) rfl (by decide) rfl, by decide⟩

end Inet
end Unameit
