import Unameit.Inet.Gc

/-!
# Inet.Delete — removing an item

`Inet_Delete` takes an item off the list of its block.  When that was the net in charge of the
block, the contents of the block move to another net, and a block that is not in use any more is
recycled together with the blocks above it that it kept alive.

The module follows the cases of the source: a node, a range, a net that is not in charge, a net
that is replaced by another one of its block, and the last net of its block.  Only the recycling
can go wrong, and `inetDelete_wellFormed_iff` says exactly when it does.
-/

namespace Unameit
namespace Inet

open HoleSeq (nth)
open BitStream (Agree)
open Function (update update_self update_of_ne)
open Option List

/-! ## Taking an item off its list -/

variable {c r U : DbObject} {p : InetPrefix} {t : Tree} {now : ℕ} {st' : State}

variable {fam : Family} {b o : DbObject} {T : Coverage} {dir : Directory}
  {e : Entry}

section Drop

structure Located (t : Tree) (T : Coverage) (o : DbObject) (e : Entry)
    (b : DbObject) : Prop where
  mem : T b e.pfx.stream
  bits : t.bits b = e.pfx.bits
  listed : o ∈ t.items e.type b

lemma Filing.located (h : Filing fam t r T dir) (ho : dir o = some e) : ∃ b, Located t T o e b := by
  rcases h.filed ho with ⟨b, hb, hbits, hmem⟩
  exact ⟨b, hb, hbits, hmem⟩

lemma mem_setItems_erase (hnodup : (t.items e.type b).Nodup) {type : InetObjType} {x : DbObject} :
    x ∈ (t.setItems e.type b ((t.items e.type b).erase o)).items type c ↔
      x ∈ t.items type c ∧ ¬ (x = o ∧ type = e.type ∧ c = b) := by
  by_cases h : type ≠ e.type ∨ c ≠ b
  · rw [setItems_of_ne t _ h]
    constructor
    · intro hx
      exact ⟨hx, fun hc => absurd h (by simp [hc.2.1, hc.2.2])⟩
    · exact And.left
  · obtain ⟨rfl, rfl⟩ : type = e.type ∧ c = b := by tauto
    rw [setItems_self, hnodup.mem_erase_iff]
    constructor
    · rintro ⟨hne, hx⟩
      exact ⟨hx, fun hc => hne hc.1⟩
    · rintro ⟨hx, hn⟩
      exact ⟨fun heq => hn ⟨heq, rfl, rfl⟩, hx⟩

/-- An item other than the universe net is taken off the list of its block. -/
theorem Filing.drop (h : Filing fam t r T dir) (ho : dir o = some e) (hloc : Located t T o e b)
    (huniv : t.universeNet ≠ some o) :
    Filing fam (t.setItems e.type b ((t.items e.type b).erase o)) r T
      (update dir o none) := by
  have hnodup := h.listed_once e.type hloc.mem
  refine h.setItems hloc.mem (hnodup.erase o) (fun {v} hv htype hhead => ?_)
    (fun hx => h.accepted (dir_update_none hx).2) ?_ ?_
  · rw [htype]
    cases hl : t.items .net b with
    | nil =>
      rw [hl] at hhead
      cases hhead
    | cons f l =>
      rw [hl] at hhead
      obtain rfl : f = v := some.inj hhead
      have hne : f ≠ o := by
        rintro rfl
        exact huniv hv
      rw [erase_cons_tail (by simpa using hne)]
      rfl
  · intro x e' hx
    rcases dir_update_none hx with ⟨hxo, hdir⟩
    rcases h.filed hdir with ⟨c, hc, hbits, hmem⟩
    exact ⟨c, hc, hbits, (mem_setItems_erase hnodup).2 ⟨hmem, fun hn => hxo hn.1⟩⟩
  · intro a c type x hc hx
    rcases (mem_setItems_erase hnodup).1 hx with ⟨hmem, hn⟩
    rcases h.filed_only hc hmem with ⟨p, hdir, hcp, hbits⟩
    refine ⟨p, ?_, hcp, hbits⟩
    rw [update_of_ne]
    · exact hdir
    · -- The item itself is listed nowhere else.
      rintro rfl
      obtain rfl : e = ⟨type, p⟩ := some.inj (ho.symm.trans hdir)
      refine hn ⟨rfl, rfl, ?_⟩
      exact h.shape.cover.unique hcp hloc.mem (hbits.trans hloc.bits.symm)

end Drop

/-! ## Longest-prefix matches after a drop -/

section Parent

variable {l : List DbObject} {net : Option DbObject}

lemma Entry.Above.mono {m n : ℕ} (h : e.Above n) (hmn : m ≤ n) : e.Above m := by
  unfold Entry.Above at *
  split at h
  · rename_i htype
    rw [if_pos htype]
    omega
  · rename_i htype
    rw [if_neg htype]
    omega

lemma netBlock_setItems_of_ne (hc : c ≠ b) :
    NetBlock (t.setItems .net b l) T e c ↔ NetBlock t T e c := by
  unfold NetBlock
  rw [setItems_of_ne t _ (.inr hc)]
  rfl

/-- An entry that does not belong to the block keeps its parent. -/
theorem isParent_setItems_of_not_inZone (hne : t.items .net b ≠ [])
    (hzone : ¬ InZone (t.setItems .net b l) T b e) (h : IsParent t T e net) :
    IsParent (t.setItems .net b l) T e net := by
  have hsub : ∀ {c}, NetBlock (t.setItems .net b l) T e c → NetBlock t T e c := by
    intro c hc
    by_cases hcb : c = b
    · subst hcb
      exact ⟨hc.1, hc.2.1, hne⟩
    · exact (netBlock_setItems_of_ne hcb).1 hc
  rcases h with ⟨c, ⟨hc, hmax⟩, hnet⟩ | ⟨hnone, hnet⟩
  · have hcb : c ≠ b := by
      rintro rfl
      exact hzone ⟨hc.1, hc.2.1, fun c' hc' => hmax c' (hsub hc')⟩
    refine .inl ⟨c, ⟨(netBlock_setItems_of_ne hcb).2 hc, fun c' hc' => hmax c' (hsub hc')⟩, ?_⟩
    rw [inetFirstItem, setItems_of_ne t _ (.inr hcb)]
    exact hnet
  · exact .inr ⟨fun c hc => hnone c (hsub hc), hnet⟩

/-- An entry that belongs to a block with a net has the first net of the block as its parent. -/
theorem isParent_of_inZone (hzone : InZone t T b e) (hne : t.items .net b ≠ []) :
    IsParent t T e (inetFirstItem t b .net) :=
  .inl ⟨b, ⟨⟨hzone.1, hzone.2.1, hne⟩, fun c hc => hzone.2.2 c hc⟩, rfl⟩

/-- When a block loses its last net, what belongs to it falls to the parent of that net. -/
theorem isParent_setItems_nil (h : Shape fam t r T) (hb : T b p.stream) (hbits : t.bits b = p.bits)
    (hzone : InZone (t.setItems .net b []) T b e) (hparent : IsParent t T ⟨.net, p⟩ net) :
    IsParent (t.setItems .net b []) T e net := by
  rcases hzone with ⟨hmem, habove, hshort⟩
  have hnetof : ∀ n, (Entry.mk .net p).Above n ↔ n < p.bits := fun n => by
    rw [Entry.Above, if_pos rfl]
  have hne_of : ∀ {c}, NetBlock t T ⟨.net, p⟩ c → c ≠ b := by
    rintro c hc rfl
    have := (hnetof _).1 hc.2.1
    omega
  have hiff : ∀ c, NetBlock (t.setItems .net b []) T e c ↔ NetBlock t T ⟨.net, p⟩ c := by
    intro c
    constructor
    · intro hc
      have hcb : c ≠ b := by
        rintro rfl
        exact hc.2.2 (setItems_self t _ _ _)
      have hle : t.bits c ≤ t.bits b := hshort c hc
      have hlt : t.bits c < t.bits b :=
        lt_of_le_of_ne hle fun heq => hcb (h.cover.unique hc.1 hmem heq)
      exact ⟨h.cover.mem_of_le hc.1 hmem hle hb, (hnetof _).2 (hbits ▸ hlt),
        ((netBlock_setItems_of_ne hcb).1 hc).2.2⟩
    · intro hc
      have hlt : t.bits c < t.bits b := hbits.symm ▸ (hnetof _).1 hc.2.1
      refine (netBlock_setItems_of_ne (hne_of hc)).2 ⟨?_, habove.mono (le_of_lt hlt), hc.2.2⟩
      exact h.cover.mem_of_le hc.1 hb (le_of_lt hlt) hmem
  refine (IsParent.congr hiff (fun _ _ => rfl) ?_).2 hparent
  intro c hc
  rw [inetFirstItem, setItems_of_ne t _ (.inr (hne_of hc)), inetFirstItem]

end Parent

/-! ## The steps of a deletion -/

def droppedState (st : State) (b : DbObject) (type : InetObjType) (o : DbObject) : State :=
  { st with
    tree := st.tree.setItems type b ((st.tree.items type b).erase o)
    blockCheck :=
      if type ≠ .range ∧ ((st.tree.items type b).erase o).length = 1 then
        inetUncheck st.blockCheck b
      else st.blockCheck }

def Tree.dropNet (t : Tree) (b o : DbObject) : Tree :=
  t.setItems .net b ((t.items .net b).erase o)

/-- The family after `o` was removed: its content is one item less, and every parent is the
longest-prefix match for the nets that are left. -/
structure Deleted (fam : Family) (st st' : State) (r : DbObject)
    (T T' : Coverage) (dir : Directory) (o : DbObject) : Prop where
  filing : Filing fam st'.tree r T' (update dir o none)
  parent : ∀ {x e}, x ≠ o → dir x = some e → IsParent st.tree T e (st.net.netof x) →
    IsParent st'.tree T' e (st'.net.netof x)

variable {st : State}

section Steps

/-- `Inet_Find` leads to the block of a filed item, with the first net of the block when the item
is a net. -/
theorem Filing.find_located (h : Filing fam t r T dir) (hloc : Located t T o e b) :
    ∃ n, inetFind fam t e.pfx = (some n, some ⟨e.pfx.bits, b⟩) ∧
      (e.type = .net → inetFirstItem t b .net = some n) := by
  rcases h.find e.pfx with ⟨net, blk, hfind, hfound⟩
  have hreach : (inetFind fam t e.pfx).2 = some ⟨e.pfx.bits, b⟩ :=
    (h.reaches_iff e.pfx b).2 ⟨hloc.mem, hloc.bits⟩
  rw [hfind] at hreach
  rcases hfound.net_deepest h.shape with ⟨c, ⟨⟨hc, hle, hne⟩, hmax⟩, hfirst⟩
  cases hl : t.items .net c with
  | nil => exact absurd hl hne
  | cons n l =>
    rw [inetFirstItem, hl] at hfirst
    refine ⟨n, ?_, fun htype => ?_⟩
    · rw [hfind, hfirst, some.inj hreach]
      rfl
    · have hbne : t.items .net b ≠ [] := by
        intro hnil
        have hlisted := hloc.listed
        rw [htype, hnil] at hlisted
        cases hlisted
      have hcb : c = b := by
        refine h.shape.cover.unique hc hloc.mem (le_antisymm ?_ ?_)
        · rw [layout_len, hloc.bits]
          exact hle
        · exact hmax b ⟨hloc.mem, le_of_eq hloc.bits, hbne⟩
      rw [inetFirstItem, ← hcb, hl]
      rfl

/-- A deletion drops the item, deals with its block and clears the parent of the item. -/
theorem inetDelete_eq (h : Filing fam st.tree r T dir) (hloc : Located st.tree T o e b)
    (huniv : st.tree.universeNet ≠ some o) (now : ℕ) :
    ∃ n, (e.type = .net → inetFirstItem st.tree b .net = some n) ∧
      inetDelete fam st e.pfx e.type o now =
        (inetDeleteDropped fam (droppedState st b e.type o) e.pfx ⟨e.pfx.bits, b⟩ e.type o
          (some n) ((st.tree.items e.type b).erase o).head? now).map
          fun st' => { st' with net := inetSetNetof st'.net o e.type none } := by
  rcases h.find_located hloc with ⟨n, hfind, hnet⟩
  refine ⟨n, hnet, ?_⟩
  have hgo : ¬ (e.pfx.bits ≠ e.pfx.bits ∨ (e.type = .net ∧ some o = st.tree.universeNet)) := by
    rintro (hne | ⟨_, heq⟩)
    · exact hne rfl
    · exact huniv heq.symm
  rw [inetDelete, hfind]
  simp only
  rw [if_neg hgo]
  simp only [inetDrop, hloc.listed, if_true, droppedState, map_eq_bind]
  rfl

lemma Located.ne_universe (hloc : Located st.tree T o e b) (h : Filing fam st.tree r T dir)
    (htype : e.type = .net) (hdel : inetDelete fam st e.pfx e.type o now = some st') :
    st.tree.universeNet ≠ some o := by
  intro huniv
  rcases h.find_located hloc with ⟨n, hfind, _⟩
  rw [inetDelete, hfind] at hdel
  simp [htype, huniv] at hdel

/-- The time at which the last node of a slot leaves is in range. -/
theorem Located.stamp_le (hloc : Located st.tree T o ⟨.node, p⟩ b) (h : Filing fam st.tree r T dir)
    (huniv : st.tree.universeNet ≠ some o) (hdel : inetDelete fam st p .node o now = some st')
    (hlast : (st.tree.items .node b).erase o = []) : now / 60 ≤ inetMaxStamp := by
  rcases inetDelete_eq h hloc huniv now with ⟨n, _, heq⟩
  rw [hdel] at heq
  by_contra hlate
  simp [inetDeleteDropped, inetSetStamp, hlast, hlate] at heq

lemma Filing.setStamp (h : Filing fam t r T dir) (stamp : DbObject → ℕ) :
    Filing fam { t with stamp := stamp } r T dir :=
  { shape := ⟨h.shape.root, h.shape.cover, h.shape.fits⟩
    universe_first := h.universe_first
    accepted := h.accepted
    filed := h.filed
    filed_only := h.filed_only
    listed_once := h.listed_once
    storage := ⟨h.storage.nodup, h.storage.disjoint, h.storage.created, h.storage.outside,
      h.storage.blank_subs, h.storage.blank_items⟩ }

end Steps

/-! ## When recycling is safe -/

def InetPrefix.Within (q p : InetPrefix) : Prop :=
  p.bits ≤ q.bits ∧ Agree p.bits p.stream q.stream

def Alone (dir : Directory) (o : DbObject) (p : InetPrefix) : Prop :=
  ∀ x e, x ≠ o → dir x = some e → ¬ e.pfx.Within p

/-- The block `U` above the prefix `p` is removed together with the block of the last item within
`p`: from `U` down to `p` no block carries a net or a range, and below `U` no block that ends at a
boundary has anything but blocks on the way to `p` or within it. -/
structure Doomed (t : Tree) (T : Coverage) (p : InetPrefix) (U : DbObject) :
    Prop where
  mem : T U p.stream
  lt : t.bits U < p.bits
  empty : ∀ A, T A p.stream → t.bits U ≤ t.bits A → t.bits A < p.bits →
    t.items .net A = [] ∧ t.items .range A = []
  lone : ∀ A, T A p.stream → t.bits U < t.bits A → t.bits A < p.bits → t.bits A % 4 = 0 →
    ∀ c a, T A a → T c a → t.bits A < t.bits c → Agree (min (t.bits c) p.bits) p.stream a

/-- Removing `o` recycles only blocks at which its prefix is aligned: it is a node, or something
else is filed within its prefix, or no bit of the prefix is set between the length of a block that
is removed and the next boundary. -/
def RecycleSafe (t : Tree) (T : Coverage) (dir : Directory) (o : DbObject)
    (e : Entry) : Prop :=
  e.type = .net → Alone dir o e.pfx → ∀ U, Doomed t T e.pfx U → e.pfx.AlignedAt (t.bits U)

/-- A block is unused exactly when nothing is filed at or below it. -/
theorem Filing.dead_iff {a : BitStream} (h : Filing fam t r T dir) (hb : T b a) :
    t.Dead b ↔ ∀ x e, dir x = some e → ¬ (T b e.pfx.stream ∧ t.bits b ≤ e.pfx.bits) := by
  constructor
  · rintro hdead x e hx ⟨hmem, hle⟩
    rcases h.filed hx with ⟨d, hd, hbits, hin⟩
    rw [hdead d (h.shape.under_of_mem hmem hd (hbits ▸ hle)) e.type] at hin
    cases hin
  · intro hnone c hc type
    rw [eq_nil_iff_forall_not_mem]
    intro x hx
    rcases h.shape.mem_of_under hb hc with ⟨⟨a', hca⟩, hle, hsub⟩
    rcases h.filed_only hca hx with ⟨q, hq, hmem, hbits⟩
    exact hnone x _ hq ⟨hsub _ hmem, hbits ▸ hle⟩

section Last

variable {target : Option DbObject}

/-- What is left when the block of net `o` has been walked over and its contents have moved to
`target`. -/
structure Vacated (fam : Family) (st : State) (r b o : DbObject) (T : Coverage)
    (dir : Directory) (target : Option DbObject) (t : Tree) : Prop where
  swept : Swept fam (st.tree.dropNet b o) t T ((st.tree.dropNet b o).Freed b)
  filing : Filing fam t r (sweptCover T ((st.tree.dropNet b o).Freed b)) (update dir o none)
  parent : ∀ {x e}, x ≠ o → dir x = some e → IsParent st.tree T e (st.net.netof x) →
    IsParent t (sweptCover T ((st.tree.dropNet b o).Freed b)) e
      ((moveAll st.net target ((st.tree.dropNet b o).contents fam (fam.bits + 1) b true)).netof x)

section Net

variable (hloc : Located st.tree T o ⟨.net, p⟩ b) (h : Filing fam st.tree r T dir)
  (ho : dir o = some ⟨.net, p⟩) (huniv : st.tree.universeNet ≠ some o)

include hloc h ho huniv

/-- The walk over the block of a net that is gone. -/
theorem Located.reparented (htarget : ∀ {e}, InZone (st.tree.dropNet b o) T b e →
      IsParent (st.tree.dropNet b o) T e target) :
    ∃ used t, inetReparent fam target (fam.bits + 1) (st.tree.dropNet b o) st.net ⟨p.bits, b⟩ true =
        (used, t, moveAll st.net target
          ((st.tree.dropNet b o).contents fam (fam.bits + 1) b true)) ∧
      (used = false ↔ (st.tree.dropNet b o).items .range b = [] ∧
        ∀ s, (st.tree.dropNet b o).Sub b s → (st.tree.dropNet b o).Dead s) ∧
      Vacated fam st r b o T dir target t := by
  have hdrop : Filing fam (st.tree.dropNet b o) r T (update dir o none) := h.drop ho hloc huniv
  have hbits : (st.tree.dropNet b o).bits b = p.bits := hloc.bits
  have hlt : p.bits < fam.bits := (h.accepted ho).2.1
  have hwalk := inetReparent_spec hdrop target hloc.mem st.net
  rw [hbits] at hwalk
  rcases hres : inetReparent fam target (fam.bits + 1) (st.tree.dropNet b o) st.net
    ⟨p.bits, b⟩ true with ⟨used, t, nd⟩
  rw [hres] at hwalk
  have hsw : Swept fam (st.tree.dropNet b o) t T ((st.tree.dropNet b o).Freed b) :=
    hwalk.tree.congr fun c => by simp
  have hfreed : ∀ {c}, (st.tree.dropNet b o).Freed b c → _ := fun hc =>
    hdrop.shape.bits_lt_of_freed hloc.mem hc
  have hnd : nd = _ := hwalk.net
  refine ⟨used, t, by rw [hnd], hwalk.used, hsw, ?_, ?_⟩
  · exact hsw.filing hdrop (fun hc => (hfreed hc).2.2 rfl) (fun hc => (hfreed hc).1)
      (fun hc => hc.dead) (fun hc hs => hc.sub hs)
  · intro x e hxo hx hpar
    rw [(hsw.shrunk fun hc => hc.dead).isParent_iff, netof_moveAll]
    have hx' : update dir o none x = some e := by
      rw [update_of_ne hxo]
      exact hx
    have hmoved := hdrop.mem_contents_snd_iff hloc.mem (hbits.symm ▸ hlt) hx'
    by_cases hin : x ∈ ((st.tree.dropNet b o).contents fam (fam.bits + 1) b true).map Prod.snd
    · rw [if_pos hin]
      exact htarget (hmoved.1 hin)
    · rw [if_neg hin]
      refine isParent_setItems_of_not_inZone ?_ (fun hz => hin (hmoved.2 hz)) hpar
      exact ne_nil_of_mem hloc.listed

/-- The walk finds the block of the last net unused exactly when the net was alone. -/
theorem Located.unused_iff (hlast : (st.tree.items .net b).erase o = []) :
    ((st.tree.dropNet b o).items .range b = [] ∧
        ∀ s, (st.tree.dropNet b o).Sub b s → (st.tree.dropNet b o).Dead s) ↔
      Alone dir o p := by
  have hdrop : Filing fam (st.tree.dropNet b o) r T (update dir o none) :=
    h.drop ho hloc huniv
  have hlt : (st.tree.dropNet b o).bits b < fam.bits :=
    lt_of_le_of_lt (le_of_eq hloc.bits) (h.accepted ho).2.1
  have hnets : (st.tree.dropNet b o).items .net b = [] :=
    (setItems_self _ _ _ _).trans hlast
  have hdead : ((st.tree.dropNet b o).items .range b = [] ∧
      ∀ s, (st.tree.dropNet b o).Sub b s → (st.tree.dropNet b o).Dead s) ↔
      (st.tree.dropNet b o).Dead b := by
    rw [Tree.dead_iff]
    constructor
    · rintro ⟨hranges, hsub⟩
      exact ⟨(hdrop.empty_of_bare hloc.mem hlt hnets hranges).2, hsub⟩
    · rintro ⟨hitems, hsub⟩
      exact ⟨hitems .range, hsub⟩
  rw [hdead, hdrop.dead_iff hloc.mem]
  have hwithin : ∀ q : InetPrefix, (T b q.stream ∧
      (st.tree.dropNet b o).bits b ≤ q.bits) ↔ q.Within p := by
    intro q
    have hbits : (st.tree.dropNet b o).bits b = p.bits := hloc.bits
    rw [h.shape.cover.mem_iff_agree hloc.mem, hbits]
    show Agree (st.tree.bits b) p.stream q.stream ∧ _ ↔ _
    rw [show st.tree.bits b = p.bits from hloc.bits]
    exact And.comm
  constructor
  · intro hnone x e hxo hx
    rw [← hwithin]
    refine hnone x e ?_
    rw [update_of_ne hxo]
    exact hx
  · intro halone x e hx
    rw [hwithin]
    rcases dir_update_none hx with ⟨hxo, hx⟩
    exact halone x e hxo hx

lemma Vacated.emptied (hv : Vacated fam st r b o T dir target t)
    (hlast : (st.tree.items .net b).erase o = []) (halone : Alone dir o p) :
    t.bits b = p.bits ∧ t.bits b < fam.bits ∧
      sweptCover T ((st.tree.dropNet b o).Freed b) b p.stream ∧ b ≠ r ∧
      ∀ type, t.items type b = [] := by
  have hbits : t.bits b = p.bits := by
    rw [hv.swept.bits]
    exact hloc.bits
  have hb : sweptCover T ((st.tree.dropNet b o).Freed b) b p.stream :=
    ⟨hloc.mem, fun hc =>
      lt_irrefl _ ((h.drop ho hloc huniv).shape.bits_lt_of_freed hloc.mem hc).2.1⟩
  have hlt : t.bits b < fam.bits := by
    rw [hbits]
    exact (h.accepted ho).2.1
  refine ⟨hbits, hlt, hb, hv.filing.empty_of_bare hb hlt ?_ ?_⟩
  · rw [hv.swept.items]
    exact (setItems_self _ _ _ _).trans hlast
  · rw [hv.swept.items]
    exact ((hloc.unused_iff h ho huniv hlast).2 halone).1

end Net

/-- What the recycling removes, in terms of the tree before the deletion. -/
theorem Located.absorbed_iff (hloc : Located st.tree T o ⟨.net, p⟩ b)
    (h : Filing fam st.tree r T dir) (hv : Vacated fam st r b o T dir target t)
    (hunused : (st.tree.dropNet b o).items .range b = [] ∧
      ∀ s, (st.tree.dropNet b o).Sub b s → (st.tree.dropNet b o).Dead s)
    (hlast : (st.tree.items .net b).erase o = []) (hU : U ≠ b) :
    Absorbed t (sweptCover T ((st.tree.dropNet b o).Freed b)) p p.bits U ↔
      Doomed st.tree T p U := by
  have hsw := hv.swept
  have hbits : t.bits = st.tree.bits := hsw.bits
  have hb : st.tree.bits b = p.bits := hloc.bits
  have hitems : ∀ {A} (type), A ≠ b → t.items type A = st.tree.items type A := by
    intro A type hA
    rw [hsw.items]
    exact setItems_of_ne _ _ (.inr hA)
  have hfreed : ∀ {c}, (st.tree.dropNet b o).Freed b c →
      st.tree.bits b < st.tree.bits c ∧ ∀ a, T c a → T b a := by
    intro c hc
    have hshape₁ : Shape fam (st.tree.dropNet b o) r T :=
      ⟨h.shape.root, h.shape.cover, h.shape.fits⟩
    rcases hc.under with ⟨s, hs, hsc⟩
    exact ⟨(hshape₁.bits_lt_of_freed hloc.mem hc).2.1,
      (hshape₁.mem_of_under hloc.mem (.head hs hsc)).2.2⟩
  have hkept : ∀ {A a}, T A a → st.tree.bits A ≤ p.bits →
      sweptCover T ((st.tree.dropNet b o).Freed b) A a := by
    intro A a hA hle
    refine ⟨hA, fun hF => ?_⟩
    have := (hfreed hF).1
    omega
  have hunique : ∀ {A}, T A p.stream → st.tree.bits A = p.bits → A = b := fun hA hAb =>
    h.shape.cover.unique hA hloc.mem (hAb.trans hb.symm)
  -- Nothing is left below the block itself.
  have hbelow : ∀ {c a}, T b a → sweptCover T ((st.tree.dropNet b o).Freed b) c a →
      st.tree.bits b < st.tree.bits c → False := by
    intro c a hba hca hlt
    rcases hv.filing.shape.cover.exists_child_of_lt (hkept hba (le_of_eq hb)) hca
      (by rw [layout_len, hbits]; exact hlt) with ⟨s, hs, _⟩
    rcases (hsw.sub_iff hba _ s).1 hs with ⟨hs', hn⟩
    exact hn (.here ⟨_, hs'⟩ (hunused.2 s ⟨_, hs'⟩))
  constructor
  · intro hA
    have hle := hA.le
    rw [hbits] at hle
    have hlt : st.tree.bits U < p.bits :=
      lt_of_le_of_ne hle fun heq => hU (hunique hA.mem.1 heq)
    refine ⟨hA.mem.1, hlt, ?_, ?_⟩
    · intro A hAmem hUA hAp
      have hne : A ≠ b := by
        rintro rfl
        omega
      have hres := hA.empty A (hkept hAmem (le_of_lt hAp)) (by rw [hbits]; exact hUA)
        (by rw [hbits]; exact le_of_lt hAp)
      rwa [hitems _ hne, hitems _ hne] at hres
    · intro A hAmem hUA hAp hnat c a hAa hca hAc
      by_cases hF : (st.tree.dropNet b o).Freed b c
      · have hba := (hfreed hF).2 a hca
        have hag : Agree p.bits p.stream a := hb ▸ h.shape.cover.agree_of_mem hloc.mem hba
        exact hag.mono (min_le_right _ _)
      · have hres := hA.lone A (hkept hAmem (le_of_lt hAp)) (by rw [hbits]; exact hUA)
          (by rw [hbits]; exact le_of_lt hAp) (by rw [hbits]; exact hnat) c a
          (hkept hAa (le_of_lt hAp)) ⟨hca, hF⟩ (by rw [hbits]; exact hAc)
        have hag : Agree (st.tree.bits c) p.stream a := h.shape.cover.agree_of_mem hres.1.1 hca
        exact hag.mono (min_le_left _ _)
  · intro hD
    refine ⟨hkept hD.mem (le_of_lt hD.lt), by rw [hbits]; exact le_of_lt hD.lt, ?_, ?_⟩
    · rintro A ⟨hAmem, _⟩ hUA hAp
      rw [hbits] at hUA hAp
      by_cases hne : A = b
      · subst hne
        rw [hsw.items]
        exact ⟨(setItems_self _ _ _ _).trans hlast, hunused.1⟩
      · rw [hitems _ hne, hitems _ hne]
        exact hD.empty A hAmem hUA (lt_of_le_of_ne hAp fun heq => hne (hunique hAmem heq))
    · rintro A ⟨hAmem, _⟩ hUA hAp hnat c a ⟨hAa, _⟩ hca hAc
      rw [hbits] at hUA hAp hnat hAc ⊢
      by_cases hne : A = b
      · subst hne
        exact absurd hAc fun hlt => hbelow hAa hca hlt
      · have hag := hD.lone A hAmem hUA
          (lt_of_le_of_ne hAp fun heq => hne (hunique hAmem heq)) hnat c a hAa hca.1 hAc
        rcases lt_or_ge p.bits (st.tree.bits c) with hlong | hshort
        · rw [min_eq_right (le_of_lt hlong)] at hag
          rw [← hb] at hag
          have hba : T b a := h.shape.cover.mem_of_agree hloc.mem hag
          exact absurd (hb.symm ▸ hlong) fun hlt => hbelow hba hca hlt
        · rw [min_eq_left hshort] at hag
          exact ⟨hkept (h.shape.cover.mem_of_agree hca.1 hag.symm) hshort, hshort⟩

end Last

/-! ## The cases of the source -/

/-- The net that takes over when net `o` of block `b` goes away: the next one of the block, or
else the parent of `o`. -/
def heir (st : State) (b o : DbObject) : Option DbObject :=
  match (st.tree.items .net b).erase o with
  | [] => st.net.netof o
  | f :: _ => some f

section Cases

/-- A node leaves its slot, which keeps the time when the last one left. -/
theorem Located.delete_node (hloc : Located st.tree T o ⟨.node, p⟩ b)
    (h : Filing fam st.tree r T dir) (huniv : st.tree.universeNet ≠ some o)
    (hnow : (st.tree.items .node b).erase o = [] → now / 60 ≤ inetMaxStamp) :
    inetDelete fam st p .node o now =
      some { droppedState st b .node o with
        tree := { (droppedState st b .node o).tree with
          stamp :=
            if (st.tree.items .node b).erase o = [] then
              update st.tree.stamp b (now / 60)
            else st.tree.stamp }
        net := inetSetNetof st.net o .node none } := by
  rcases inetDelete_eq h hloc huniv now with ⟨n, _, heq⟩
  rw [heq]
  cases hl : (st.tree.items .node b).erase o with
  | nil =>
    simp [inetDeleteDropped, inetSetStamp, hnow hl, droppedState]
    rfl
  | cons x l =>
    rfl

/-- The first net of a block stays when another one goes away. -/
theorem head?_erase_of_ne {l : List DbObject} (h : l.head? ≠ some o) :
    (l.erase o).head? = l.head? := by
  cases l with
  | nil => rfl
  | cons f l =>
    have hne : f ≠ o := by
      rintro rfl
      exact h rfl
    rw [erase_cons_tail (by simpa using hne)]
    rfl

section

variable (hloc : Located st.tree T o ⟨.net, p⟩ b)

include hloc

/-- What belongs to the block of net `o` falls to the heir of `o`. -/
theorem Located.isParent_heir (h : Shape fam st.tree r T)
    (hparent : IsParent st.tree T ⟨.net, p⟩ (st.net.netof o))
    (hzone : InZone (st.tree.dropNet b o) T b e) :
    IsParent (st.tree.dropNet b o) T e (heir st b o) := by
  have hitems : (st.tree.dropNet b o).items .net b = (st.tree.items .net b).erase o :=
    setItems_self _ _ _ _
  cases hl : (st.tree.items .net b).erase o with
  | nil =>
    have htree : st.tree.dropNet b o = st.tree.setItems .net b [] := by
      rw [Tree.dropNet, hl]
    rw [htree] at hzone ⊢
    rw [heir, hl]
    exact isParent_setItems_nil h hloc.mem hloc.bits hzone hparent
  | cons f l =>
    have hres := isParent_of_inZone hzone (by rw [hitems, hl]; exact cons_ne_nil f l)
    rw [inetFirstItem, hitems, hl] at hres
    rw [heir, hl]
    exact hres

/-- A net that is not in charge of its block leaves nothing to do. -/
theorem Located.delete_further (h : Filing fam st.tree r T dir)
    (huniv : st.tree.universeNet ≠ some o) (hfirst : inetFirstItem st.tree b .net ≠ some o)
    (now : ℕ) :
    inetDelete fam st p .net o now =
      some { droppedState st b .net o with
        net := inetSetNetof (st.net.setItemBlock o none) o .net none } := by
  rcases inetDelete_eq h hloc huniv now with ⟨n, hn, heq⟩
  have hhead : inetFirstItem st.tree b .net = some n := hn rfl
  have hne : some o ≠ some n := by
    rw [← hhead]
    exact Ne.symm hfirst
  have hkeep : ((st.tree.items .net b).erase o).head? = some n :=
    (head?_erase_of_ne hfirst).trans hhead
  rw [heq, inetDeleteDropped]
  simp only [hkeep, if_true, if_pos hne, map_some]
  rfl

/-- The net in charge of a block: its contents move to the heir, and when nothing at all is left
the block is recycled. -/
theorem Located.delete_inCharge (h : Filing fam st.tree r T dir) (ho : dir o = some ⟨.net, p⟩)
    (huniv : st.tree.universeNet ≠ some o) (hfirst : inetFirstItem st.tree b .net = some o)
    (hparent : IsParent st.tree T ⟨.net, p⟩ (st.net.netof o)) (now : ℕ) :
    ∃ t t', Vacated fam st r b o T dir (heir st b o) t ∧
      inetDelete fam st p .net o now =
        some { droppedState st b .net o with
          tree := t'
          net := inetSetNetof ((moveAll st.net (heir st b o) ((st.tree.dropNet b o).contents
            fam (fam.bits + 1) b true)).setItemBlock o none) o .net none } ∧
      (¬ ((st.tree.items .net b).erase o = [] ∧ Alone dir o p) → t' = t) ∧
      ((st.tree.items .net b).erase o = [] ∧ Alone dir o p →
        t' = inetGcBlock fam p (fam.bits + 1) t ⟨p.bits, b⟩) := by
  rcases hloc.reparented h ho huniv (hloc.isParent_heir h.shape hparent) with
    ⟨used, t, hrep, hused, hv⟩
  rcases inetDelete_eq h hloc huniv now with ⟨n, hn, heq⟩
  have hcharge : ¬ (some o ≠ some n) := not_not.2 (hfirst.symm.trans (hn rfl))
  have htree : (droppedState st b .net o).tree = st.tree.dropNet b o := rfl
  have hsame : (droppedState st b .net o).net = st.net := rfl
  cases hl : (st.tree.items .net b).erase o with
  | nil =>
    have hheir : heir st b o = st.net.netof o := by rw [heir, hl]
    have hiff := hloc.unused_iff h ho huniv hl
    rw [heq, inetDeleteDropped, hheir]
    rw [hheir] at hrep hv
    simp only [hl, head?_nil, if_neg hcharge, if_true, htree, hsame, hrep]
    cases used with
    | true =>
      refine ⟨t, t, hv, rfl, fun _ => rfl, ?_⟩
      rintro ⟨_, halone⟩
      exact absurd (hused.2 (hiff.2 halone)) (by decide)
    | false =>
      have halone := hiff.1 (hused.1 rfl)
      exact ⟨t, _, hv, rfl, fun hn => absurd ⟨trivial, halone⟩ hn, fun _ => rfl⟩
  | cons f l =>
    have hheir : heir st b o = some f := by rw [heir, hl]
    refine ⟨t, t, hv, ?_, fun _ => rfl, fun hc => by simp at hc⟩
    rw [heq, inetDeleteDropped, hheir]
    rw [hheir] at hrep
    have hsome : ¬ (some f = (none : Option DbObject)) := by simp
    simp only [hl, head?_cons, if_neg hcharge, if_neg hsome, htree, hsame, hrep, map_some]

end

lemma Located.deleted_node (hloc : Located st.tree T o ⟨.node, p⟩ b)
    (h : Filing fam st.tree r T dir) (ho : dir o = some ⟨.node, p⟩)
    (huniv : st.tree.universeNet ≠ some o)
    (hnow : (st.tree.items .node b).erase o = [] → now / 60 ≤ inetMaxStamp) :
    ∃ st', inetDelete fam st p .node o now = some st' ∧ Deleted fam st st' r T T dir o := by
  refine ⟨_, hloc.delete_node h huniv hnow, (h.drop ho hloc huniv).setStamp _, ?_⟩
  intro x e hxo _ hpar
  have hnetof : (inetSetNetof st.net o .node none).netof x = st.net.netof x :=
    update_of_ne hxo _ _
  rw [hnetof]
  exact (isParent_setItems_of_head (t := st.tree) (b := b) .node
    ((st.tree.items .node b).erase o) (by simp) e _).2 hpar

/-- The items that move when net `o` of block `b` goes away. -/
def leaving (fam : Family) (st : State) (b o : DbObject) : List (InetObjType × DbObject) :=
  if inetFirstItem st.tree b .net = some o then
    (st.tree.dropNet b o).contents fam (fam.bits + 1) b true
  else []

def abandonedNet (fam : Family) (st : State) (b o : DbObject) : NetData :=
  inetSetNetof ((moveAll st.net (heir st b o) (leaving fam st b o)).setItemBlock o none) o .net none

section

variable (hloc : Located st.tree T o ⟨.net, p⟩ b) (h : Filing fam st.tree r T dir)
  (ho : dir o = some ⟨.net, p⟩) (huniv : st.tree.universeNet ≠ some o)
  (hparent : IsParent st.tree T ⟨.net, p⟩ (st.net.netof o))

include hloc h ho huniv hparent

/-- Removing a net, when only aligned blocks are recycled. -/
theorem Located.deleted_net (hsafe : RecycleSafe st.tree T dir o ⟨.net, p⟩) (now : ℕ) :
    ∃ t' T', inetDelete fam st p .net o now =
        some { droppedState st b .net o with
          tree := t'
          net := abandonedNet fam st b o } ∧
      Deleted fam st
        { droppedState st b .net o with
          tree := t'
          net := abandonedNet fam st b o } r T T' dir o ∧
      Shrunk (droppedState st b .net o).tree t' T T' ∧
      ((st.tree.items .net b).erase o = [] → Alone dir o p → p.bits % 4 ≠ 0 →
        ∀ a, ¬ T' b a) := by
  by_cases hfirst : inetFirstItem st.tree b .net = some o
  · have hmoves : leaving fam st b o =
        (st.tree.dropNet b o).contents fam (fam.bits + 1) b true := if_pos hfirst
    rcases hloc.delete_inCharge h ho huniv hfirst hparent now with ⟨t, t', hv, hdel, hkeep, hgc⟩
    rw [← hmoves] at hdel
    have hshr := hv.swept.shrunk fun hc => hc.dead
    have hpar : ∀ {x e}, x ≠ o → dir x = some e → IsParent st.tree T e (st.net.netof x) →
        IsParent t (sweptCover T ((st.tree.dropNet b o).Freed b)) e
          ((abandonedNet fam st b o).netof x) := by
      intro x e hxo hx hold
      have hnetof : (abandonedNet fam st b o).netof x =
        (moveAll st.net (heir st b o) (leaving fam st b o)).netof x := update_of_ne hxo _ _
      rw [hnetof, hmoves]
      exact hv.parent hxo hx hold
    by_cases hlone : (st.tree.items .net b).erase o = [] ∧ Alone dir o p
    · -- The block and perhaps some above it are recycled.
      rcases hv.emptied hloc h ho huniv hlone.1 hlone.2 with ⟨hbits, hlt, hb, hbr, hempty⟩
      rcases inetGcBlock_shrunk (fam.bits + 1) hv.filing hb hbr hempty (by omega) (by
        intro U hU
        rw [hbits] at hU
        by_cases hUb : U = b
        · rw [hUb, hbits]
          exact (h.accepted ho).alignedAt (by simp)
        · rw [hv.swept.bits]
          exact hsafe rfl hlone.2 U ((hloc.absorbed_iff h hv
            ((hloc.unused_iff h ho huniv hlone.1).2 hlone.2) hlone.1 hUb).1 hU)) with
        ⟨T', hfile', hshr', hodd⟩
      rw [hbits] at hfile' hshr' hodd
      rw [hgc hlone] at hdel
      refine ⟨_, T', hdel, ⟨hfile', ?_⟩, hshr.trans hshr', fun _ _ => hodd⟩
      intro x e hxo hx hold
      rw [hshr'.isParent_iff]
      exact hpar hxo hx hold
    · rw [hkeep hlone] at hdel
      exact ⟨t, _, hdel, ⟨hv.filing, hpar⟩, hshr, fun h₁ h₂ => absurd ⟨h₁, h₂⟩ hlone⟩
  · have hmoves : leaving fam st b o = [] := if_neg hfirst
    have hnet : abandonedNet fam st b o =
        inetSetNetof (st.net.setItemBlock o none) o .net none := by
      rw [abandonedNet, hmoves]
      rfl
    have hdel := hloc.delete_further h huniv hfirst now
    rw [← hnet] at hdel
    have hhead : ((st.tree.items .net b).erase o).head? = (st.tree.items .net b).head? :=
      head?_erase_of_ne hfirst
    refine ⟨_, T, hdel, ⟨h.drop ho hloc huniv, ?_⟩, Shrunk.refl _ T, ?_⟩
    · intro x e hxo _ hold
      have hnetof : (abandonedNet fam st b o).netof x = st.net.netof x := by
        rw [hnet]
        exact update_of_ne hxo _ _
      rw [hnetof]
      exact (isParent_setItems_of_head .net _ (fun _ => hhead) e _).2 hold
    · intro hnil
      have hlisted : o ∈ st.tree.items .net b := hloc.listed
      rw [hnil] at hhead
      rw [head?_eq_none_iff.1 hhead.symm] at hlisted
      cases hlisted

/-- When some block is recycled at a position where the prefix is not aligned, the family does not
stay well formed. -/
theorem Located.delete_broken (halone : Alone dir o p) (hU : Doomed st.tree T p U)
    (halign : ¬ p.AlignedAt (st.tree.bits U)) {dir' : Directory}
    (hdel : inetDelete fam st p .net o now = some st') : ¬ WellFormed fam st' dir' := by
  have hb : st.tree.bits b = p.bits := hloc.bits
  -- The net is the only one of its block, and so in charge of it.
  have hsole : ∀ x, x ∈ st.tree.items .net b → x = o := by
    intro x hx
    by_contra hxo
    rcases h.filed_only hloc.mem hx with ⟨q, hq, hmem, hbits⟩
    refine halone x _ hxo hq ⟨le_of_eq (hb.symm.trans hbits), ?_⟩
    exact hb ▸ h.shape.cover.agree_of_mem hloc.mem hmem
  have hnodup := h.listed_once .net hloc.mem
  have hnil : (st.tree.items .net b).erase o = [] := by
    rw [eq_nil_iff_forall_not_mem]
    intro x hx
    rw [hnodup.mem_erase_iff] at hx
    exact hx.1 (hsole x hx.2)
  have hfirst : inetFirstItem st.tree b .net = some o := by
    have hlisted : o ∈ st.tree.items .net b := hloc.listed
    rw [inetFirstItem]
    cases hl : st.tree.items .net b with
    | nil =>
      rw [hl] at hlisted
      cases hlisted
    | cons f l =>
      rw [hsole f (hl ▸ mem_cons_self)]
      rfl
  rcases hloc.delete_inCharge h ho huniv hfirst hparent now with ⟨t, t', hv, hdel', _, hgc⟩
  obtain rfl := some.inj (hdel.symm.trans hdel')
  rcases hv.emptied hloc h ho huniv hnil halone with ⟨hbits, hlt, hbmem, hbr, hempty⟩
  have hUb : U ≠ b := by
    rintro rfl
    exact absurd hb (ne_of_lt hU.lt)
  have habs :=
    (hloc.absorbed_iff h hv ((hloc.unused_iff h ho huniv hnil).2 halone) hnil hUb).2 hU
  rw [← hbits] at habs
  have halign' : ¬ p.AlignedAt (t.bits U) := by
    rw [hv.swept.bits]
    exact halign
  intro hwf
  have hbroken := inetGcBlock_broken (fam.bits + 1) hv.filing hbmem hbr hempty (by omega) habs
    halign'
  rw [hbits, ← hgc ⟨hnil, halone⟩] at hbroken
  exact hbroken hwf.blocks hwf.storage

end

end Cases

/-! ## The result for nodes and nets -/

section Result

lemma Deleted.wellFormed {T' : Coverage} (h : WellFormed fam st dir)
    (hdel : Deleted fam st st' r (fun b a => st.tree.Covers a b) T' dir o) :
    WellFormed fam st' (update dir o none) := by
  refine hdel.filing.wellFormed ?_
  intro x e hx htype
  rcases dir_update_none hx with ⟨hxo, hx⟩
  exact hdel.parent hxo hx (h.parent hx htype)

/-- A deletion that recycles only aligned blocks keeps the family well formed. -/
theorem WellFormed.delete (h : WellFormed fam st dir) (ho : dir o = some e)
    (htype : e.type ≠ .range) (huniv : st.tree.universeNet ≠ some o)
    (hnow : now / 60 ≤ inetMaxStamp)
    (hsafe : RecycleSafe st.tree (fun b a => st.tree.Covers a b) dir o e) :
    ∃ st', inetDelete fam st e.pfx e.type o now = some st' ∧
      WellFormed fam st' (update dir o none) := by
  rcases h.filing with ⟨r, hfile⟩
  rcases hfile.located ho with ⟨b, hloc⟩
  rcases e with ⟨type, p⟩
  cases type with
  | node =>
    rcases hloc.deleted_node hfile ho huniv (fun _ => hnow) with ⟨st', heq, hdel⟩
    exact ⟨st', heq, hdel.wellFormed h⟩
  | net =>
    rcases hloc.deleted_net hfile ho huniv (h.parent ho htype) hsafe now with
      ⟨t', T', heq, hdel, _⟩
    exact ⟨_, heq, hdel.wellFormed h⟩
  | range => exact absurd rfl htype

/-- Deleting a node or a net other than the universe net leaves a well-formed family with exactly
the remaining items if and only if it recycles only blocks at which the prefix of the item is
aligned. -/
theorem inetDelete_wellFormed_iff (h : WellFormed fam st dir) (ho : dir o = some e)
    (htype : e.type ≠ .range) (huniv : st.tree.universeNet ≠ some o)
    (hnow : now / 60 ≤ inetMaxStamp) :
    (∃ st', inetDelete fam st e.pfx e.type o now = some st' ∧
        WellFormed fam st' (update dir o none)) ↔
      RecycleSafe st.tree (fun b a => st.tree.Covers a b) dir o e := by
  constructor
  · rintro ⟨st', hdel, hwf⟩ hnet halone U hU
    rcases h.filing with ⟨r, hfile⟩
    rcases hfile.located ho with ⟨b, hloc⟩
    rcases e with ⟨type, p⟩
    obtain rfl : type = .net := hnet
    by_contra halign
    exact hloc.delete_broken hfile ho huniv (h.parent ho htype) halone hU halign hdel hwf
  · exact fun hsafe => h.delete ho htype huniv hnow hsafe

end Result

def octetNets : State :=
  inetInsert octetFamily (inetInsert octetFamily (inetInsert octetFamily octetUniverse
    ⟨2, [0x00]⟩ .net 1) ⟨4, [0x10]⟩ .net 2) ⟨4, [0x40]⟩ .net 3

def octetNetsDir : Directory :=
  update (update (update (update (fun _ => none)
    0 (some ⟨.net, ⟨0, [0x00]⟩⟩)) 1 (some ⟨.net, ⟨2, [0x00]⟩⟩)) 2 (some ⟨.net, ⟨4, [0x10]⟩⟩))
    3 (some ⟨.net, ⟨4, [0x40]⟩⟩)

def octetKept : State :=
  (inetDelete octetFamily octetNets ⟨2, [0x00]⟩ .net 1 0).getD octetNets

def octetKeptDir : Directory :=
  update octetNetsDir 1 none

lemma octetNets_wellFormed : WellFormed octetFamily octetNets octetNetsDir := by
  have h₁ := octetUniverse_wellFormed.insert (o := 1) (e := ⟨.net, ⟨2, [0x00]⟩⟩) rfl
    (octet_net_accepted _ _ (by decide) (by decide)) (.inl (.inr (by decide)))
  have h₂ := h₁.insert (o := 2) (e := ⟨.net, ⟨4, [0x10]⟩⟩) rfl
    (octet_net_accepted _ _ (by decide) (by decide)) (.inl (.inl rfl))
  exact h₂.insert (o := 3) (e := ⟨.net, ⟨4, [0x40]⟩⟩) rfl
    (octet_net_accepted _ _ (by decide) (by decide)) (.inl (.inl rfl))

/-- Net 2 lies within net 1, so that no block goes away with net 1. -/
theorem octetNets_recycleSafe : RecycleSafe octetNets.tree (fun b a => octetNets.tree.Covers a b)
    octetNetsDir 1 ⟨.net, ⟨2, [0x00]⟩⟩ := by
  intro _ halone
  refine absurd ⟨by decide, ?_⟩ (halone 2 ⟨.net, ⟨4, [0x10]⟩⟩ (by decide) rfl)
  intro k hk
  interval_cases k <;> rfl

theorem inetDelete_wellFormed_iff_net : ∃ st',
    inetDelete octetFamily octetNets ⟨2, [0x00]⟩ .net 1 0 = some st' ∧
      WellFormed octetFamily st' (update octetNetsDir 1 none) :=
  (inetDelete_wellFormed_iff (e := ⟨.net, ⟨2, [0x00]⟩⟩) octetNets_wellFormed rfl (by decide)
    (by decide) (by decide)).2 octetNets_recycleSafe

lemma octetKept_wellFormed : WellFormed octetFamily octetKept octetKeptDir := by
  have hnow : 0 / 60 ≤ inetMaxStamp := by decide
  rcases octetNets_wellFormed.delete (e := ⟨.net, ⟨2, [0x00]⟩⟩) rfl (by decide) (by decide) hnow
    octetNets_recycleSafe with ⟨st', hdel, hwf⟩
  have hkept : octetKept = st' := by
    rw [octetKept, hdel]
    rfl
  rw [hkept]
  exact hwf

/-- Recycling the block of net 2 and then the one that net 1 left behind, the source overwrites
entries 1 to 4 of the root block instead of entries 0 to 3: entry 0 still refers to a block that
is on the free list, and net 3 is lost. -/
theorem inetDelete_loses_net : WellFormed octetFamily octetKept octetKeptDir ∧
    octetKeptDir 2 = some ⟨.net, ⟨4, [0x10]⟩⟩ ∧ octetKeptDir 3 = some ⟨.net, ⟨4, [0x40]⟩⟩ ∧
    ∃ st', inetDelete octetFamily octetKept ⟨4, [0x10]⟩ .net 2 0 = some st' ∧
      st'.tree.rootBlock = some 0 ∧ nth (st'.tree.subs 0) 0 = some 1 ∧ 1 ∈ st'.tree.free .block ∧
      (∀ b, ¬ Reaches octetFamily st'.tree ⟨4, [0x40]⟩ b) ∧
      ¬ WellFormed octetFamily st' (update octetKeptDir 2 none) := by
  refine ⟨octetKept_wellFormed, rfl, rfl, _, rfl, rfl, rfl, by decide, ?_, ?_⟩
  · intro b hb
    cases hb
  · intro hwf
    rcases hwf.filed (o := 3) (e := ⟨.net, ⟨4, [0x40]⟩⟩) rfl with ⟨b, hb, _⟩
    cases hb

end Inet
end Unameit
