import Unameit.Inet.Shape

/-!
# Inet.WellFormed — what a well-formed family is

A `Directory` says which items are filed, as what and at which prefix; it is the abstract content
of a family.  `WellFormed fam st dir` relates a state of the family to its content:

* the blocks form a well-formed tree;
* every filed item is listed in exactly the block that `Inet_Find` reaches at its own prefix;
* the `netof` of a node or net is the first net of the deepest block above it that carries a net;
* the objects on the free lists are blank and not part of the tree.

`Filing` is what this says about the tree, with the cover of the tree made explicit.
-/

namespace Unameit
namespace Inet

open HoleSeq (nth)
open BitStream (Agree window)

/-! ## Directories -/

structure Entry where
  type : InetObjType
  pfx : InetPrefix
  deriving DecidableEq, Repr

abbrev Directory := DbObject → Option Entry

/-- The prefixes that the prefix functions of the source produce for an item of each type. -/
def Entry.Accepted (fam : Family) (e : Entry) : Prop :=
  e.pfx.octets.length = fam.octets ∧
    match e.type with
    | .node => e.pfx.bits = fam.bits
    | .net => e.pfx.bits < fam.bits ∧ ∀ k, e.pfx.bits ≤ k → e.pfx.stream k = false
    | .range => e.pfx.bits < fam.bits

/-- A length is above an entry: strictly for nets, whose own block does not count. -/
def Entry.Above (e : Entry) (n : ℕ) : Prop :=
  if e.type = .net then n < e.pfx.bits else n ≤ e.pfx.bits

variable {fam : Family} {e : Entry} {t : Tree} {T : Coverage}
  {net : Option DbObject} {b r : DbObject} {st : State} {dir : Directory}

lemma dir_update_some {x o : DbObject} {e' : Entry}
    (h : Function.update dir o (some e) x = some e') :
    (x = o ∧ e = e') ∨ (x ≠ o ∧ dir x = some e') := by
  by_cases hx : x = o
  · subst hx
    rw [Function.update_self] at h
    exact .inl ⟨rfl, Option.some.inj h⟩
  · rw [Function.update_of_ne hx] at h
    exact .inr ⟨hx, h⟩

lemma dir_update_none {x o : DbObject} (h : Function.update dir o none x = some e) :
    x ≠ o ∧ dir x = some e := by
  have hx : x ≠ o := by
    rintro rfl
    rw [Function.update_self] at h
    cases h
  rw [Function.update_of_ne hx] at h
  exact ⟨hx, h⟩

lemma Entry.Accepted.bits_le (h : e.Accepted fam) : e.pfx.bits ≤ fam.bits := by
  rcases e with ⟨type, p⟩
  cases type with
  | net => exact le_of_lt h.2.1
  | node => exact le_of_eq h.2
  | range => exact le_of_lt h.2

lemma Entry.Above.le {n : ℕ} (h : e.Above n) : n ≤ e.pfx.bits := by
  unfold Entry.Above at h
  split at h
  · exact le_of_lt h
  · exact h

def NetBlock (t : Tree) (T : Coverage) (e : Entry) (c : DbObject) : Prop :=
  T c e.pfx.stream ∧ e.Above (t.bits c) ∧ t.items .net c ≠ []

/-- `net` is the longest-prefix match for `e`: the first net of the deepest block above `e` that
carries one, and nothing when there is no such block. -/
def IsParent (t : Tree) (T : Coverage) (e : Entry) (net : Option DbObject) :
    Prop :=
  (∃ c, Deepest t.bits (NetBlock t T e) c ∧ net = inetFirstItem t c .net) ∨
    ((∀ c, ¬ NetBlock t T e c) ∧ net = none)

/-- The longest-prefix match only depends on the net blocks above the entry. -/
theorem IsParent.congr {t' : Tree} {T' : Coverage} {e' : Entry}
    (hnet : ∀ c, NetBlock t' T' e' c ↔ NetBlock t T e c)
    (hbits : ∀ c, NetBlock t T e c → t'.bits c = t.bits c)
    (hfirst : ∀ c, NetBlock t T e c → inetFirstItem t' c .net = inetFirstItem t c .net) :
    IsParent t' T' e' net ↔ IsParent t T e net := by
  have hdeep : ∀ c, Deepest t'.bits (NetBlock t' T' e') c ↔
      Deepest t.bits (NetBlock t T e) c := by
    intro c
    constructor
    · rintro ⟨hc, hmax⟩
      refine ⟨(hnet c).1 hc, fun c' hc' => ?_⟩
      rw [← hbits c' hc', ← hbits c ((hnet c).1 hc)]
      exact hmax c' ((hnet c').2 hc')
    · rintro ⟨hc, hmax⟩
      refine ⟨(hnet c).2 hc, fun c' hc' => ?_⟩
      rw [hbits c' ((hnet c').1 hc'), hbits c hc]
      exact hmax c' ((hnet c').1 hc')
  constructor
  · rintro (⟨c, hc, hx⟩ | ⟨hnone, hx⟩)
    · have hc' := (hdeep c).1 hc
      exact .inl ⟨c, hc', (hfirst c hc'.1) ▸ hx⟩
    · exact .inr ⟨fun c hc => hnone c ((hnet c).2 hc), hx⟩
  · rintro (⟨c, hc, hx⟩ | ⟨hnone, hx⟩)
    · exact .inl ⟨c, (hdeep c).2 hc, (hfirst c hc.1).symm ▸ hx⟩
    · exact .inr ⟨fun c hc => hnone c ((hnet c).1 hc), hx⟩

def Tree.Spare (t : Tree) (o : DbObject) : Prop :=
  (∃ cls, o ∈ t.free cls) ∨ t.nextObject ≤ o

/-- The free lists hold distinct objects, and spare objects are blank and outside the tree. -/
structure Storage (t : Tree) (T : Coverage) : Prop where
  nodup : ∀ cls, (t.free cls).Nodup
  disjoint : ∀ {o}, o ∈ t.free .block → o ∉ t.free .slot
  created : ∀ {cls o}, o ∈ t.free cls → o < t.nextObject
  outside : ∀ {o a}, t.Spare o → ¬ T o a
  blank_subs : ∀ {o}, t.Spare o → ∀ i, nth (t.subs o) i = none
  blank_items : ∀ {o} (type), t.Spare o → t.items type o = []

/-- The block that `Inet_Find` reaches at a prefix has the full length of the prefix. -/
def Reaches (fam : Family) (t : Tree) (p : InetPrefix) (b : DbObject) : Prop :=
  (inetFind fam t p).2 = some ⟨p.bits, b⟩

/-- A state of the family is well formed and holds exactly the items of `dir`. -/
structure WellFormed (fam : Family) (st : State) (dir : Directory) : Prop where
  blocks : BlockTree fam st.tree
  universe_first : ∃ r u, st.tree.rootBlock = some r ∧ st.tree.universeNet = some u ∧
    inetFirstItem st.tree r .net = some u
  accepted : ∀ {o e}, dir o = some e → e.Accepted fam
  filed : ∀ {o e}, dir o = some e → ∃ b, Reaches fam st.tree e.pfx b ∧ o ∈ st.tree.items e.type b
  filed_only : ∀ {a b type o}, st.tree.Covers a b → o ∈ st.tree.items type b →
    ∃ p, dir o = some ⟨type, p⟩ ∧ Reaches fam st.tree p b
  listed_once : ∀ {a b} (type), st.tree.Covers a b → (st.tree.items type b).Nodup
  parent : ∀ {o e}, dir o = some e → e.type ≠ .range →
    IsParent st.tree (fun b a => st.tree.Covers a b) e (st.net.netof o)
  storage : Storage st.tree (fun b a => st.tree.Covers a b)

structure Filing (fam : Family) (t : Tree) (r : DbObject) (T : Coverage)
    (dir : Directory) : Prop where
  shape : Shape fam t r T
  universe_first : ∃ u, t.universeNet = some u ∧ inetFirstItem t r .net = some u
  accepted : ∀ {o e}, dir o = some e → e.Accepted fam
  filed : ∀ {o e}, dir o = some e →
    ∃ b, T b e.pfx.stream ∧ t.bits b = e.pfx.bits ∧ o ∈ t.items e.type b
  filed_only : ∀ {a b type o}, T b a → o ∈ t.items type b →
    ∃ p, dir o = some ⟨type, p⟩ ∧ T b p.stream ∧ t.bits b = p.bits
  listed_once : ∀ {a b} (type), T b a → (t.items type b).Nodup
  storage : Storage t T

/-! ## Looking up a prefix -/

structure Found (t : Tree) (r : DbObject) (T : Coverage) (p : InetPrefix)
    (net : Option DbObject) (blk : InetBlock) : Prop where
  mem : T blk.block p.stream
  bits : blk.bits = t.bits blk.block
  le : blk.bits ≤ p.bits
  blocked : blk.bits < p.bits → ∀ s, (t.layout r).child blk.block p.stream = some s →
    p.bits < t.bits s
  net : ∃ c, Deepest t.bits (fun c => T c p.stream ∧ t.bits c ≤ blk.bits ∧ t.items .net c ≠ []) c ∧
    net = inetFirstItem t c .net

section Find

variable {p : InetPrefix} {blk : InetBlock}

section

variable (h : Shape fam t r T)

include h

lemma Shape.findLoop_found (hslot : ∀ {b a}, T b a → t.bits b = fam.bits → t.items .net b = [])
    (fuel : ℕ) (net : Option DbObject) (blk : InetBlock) (hfuel : p.bits - blk.bits ≤ fuel)
    (hmem : T blk.block p.stream) (hbits : blk.bits = t.bits blk.block) (hle : blk.bits ≤ p.bits)
    (hnet : ∃ c, Deepest t.bits
      (fun c => T c p.stream ∧ t.bits c ≤ blk.bits ∧ t.items .net c ≠ []) c ∧
      net = inetFirstItem t c .net) :
    Found t r T p (inetFindLoop fam t p fuel net blk).1 (inetFindLoop fam t p fuel net blk).2 := by
  induction fuel generalizing net blk with
  | zero =>
    have hend : ¬ blk.bits < p.bits := by omega
    exact ⟨hmem, hbits, hle, fun hlt => absurd hlt hend, hnet⟩
  | succ fuel ih =>
    rw [inetFindLoop]
    by_cases hlt : blk.bits < p.bits
    · have hchild : (t.layout r).child blk.block p.stream =
          nth (t.subs blk.block) (subIndex p blk.bits) := by
        rw [layout_child, subIndex_eq_window, hbits]
      rw [if_pos hlt]
      cases ho : nth (t.subs blk.block) (subIndex p blk.bits) with
      | none =>
        refine ⟨hmem, hbits, hle, ?_, hnet⟩
        intro _ s hs
        rw [hchild, ho] at hs
        cases hs
      | some o =>
        rw [ho] at hchild
        rcases h.cover.child_mem hmem hchild with ⟨hmemo, hparent, hlto⟩
        by_cases hlong : t.bits o > p.bits
        · simp only [hlong, if_true]
          refine ⟨hmem, hbits, hle, ?_, hnet⟩
          intro _ s hs
          obtain rfl : o = s := Option.some.inj (hchild.symm.trans hs)
          exact hlong
        · simp only [hlong, if_false]
          refine ih _ ⟨t.bits o, o⟩ ?_ hmemo rfl (Nat.le_of_not_lt hlong) ?_
          · rw [layout_len] at hlto
            show p.bits - t.bits o ≤ fuel
            omega
          -- The nearest net so far, unless `o` itself carries one.
          rcases hnet with ⟨c, ⟨⟨hc, hcle, hcnet⟩, hcmax⟩, hcfirst⟩
          have hbelow : ∀ c', T c' p.stream → t.bits c' ≤ t.bits o → c' ≠ o →
              t.bits c' ≤ blk.bits := by
            intro c' hc' hle' hne
            have hlt' : t.bits c' < t.bits o := by
              rcases lt_or_ge (t.bits c') (t.bits o) with hlt' | hge
              · exact hlt'
              · exact absurd (h.cover.unique hc' hmemo (le_antisymm hle' hge)) hne
            rw [hbits]
            exact h.cover.len_le_parent hmemo hc' hparent
              (h.cover.ne_root_of_pos (Nat.lt_of_le_of_lt (Nat.zero_le _) hlto)) hlt'
          rw [layout_len] at hlto
          by_cases hempty : t.items .net o = []
          · refine ⟨c, ⟨⟨hc, ?_, hcnet⟩, ?_⟩, ?_⟩
            · show t.bits c ≤ t.bits o
              omega
            · rintro c' ⟨hc', hle', hnet'⟩
              refine hcmax c' ⟨hc', hbelow c' hc' hle' ?_, hnet'⟩
              rintro rfl
              exact hnet' hempty
            · simp [inetFirstItem, hempty, hcfirst]
          · refine ⟨o, ⟨⟨hmemo, le_refl _, hempty⟩, ?_⟩, ?_⟩
            · rintro c' ⟨_, hle', _⟩
              exact hle'
            · have hfull : t.bits o < fam.bits := by
                refine lt_of_le_of_ne (h.bits_le hmemo) ?_
                intro heq
                exact hempty (hslot hmemo heq)
              have hfirst : inetFirstItem t o .net ≠ none := by
                simpa [inetFirstItem] using hempty
              simp [hfull, hfirst]
    · rw [if_neg hlt]
      exact ⟨hmem, hbits, hle, fun hlt' => absurd hlt' hlt, hnet⟩

/-- The descent ends in a block of the tree at or above the prefix. -/
theorem Shape.findLoop_mem (fuel : ℕ) (net : Option DbObject) (blk : InetBlock)
    (hmem : T blk.block p.stream) (hbits : blk.bits = t.bits blk.block) :
    T (inetFindLoop fam t p fuel net blk).2.block p.stream ∧
      (inetFindLoop fam t p fuel net blk).2.bits =
        t.bits (inetFindLoop fam t p fuel net blk).2.block := by
  induction fuel generalizing net blk with
  | zero => exact ⟨hmem, hbits⟩
  | succ fuel ih =>
    rw [inetFindLoop]
    split
    · split
      · exact ⟨hmem, hbits⟩
      · rename_i o ho
        split
        · exact ⟨hmem, hbits⟩
        · refine ih _ ⟨t.bits o, o⟩ ?_ rfl
          refine (h.cover.child_mem hmem ?_).1
          rw [layout_child, ← hbits, ← subIndex_eq_window]
          exact ho
    · exact ⟨hmem, hbits⟩

lemma Shape.mem_of_reaches (hb : Reaches fam t p b) : T b p.stream ∧ t.bits b = p.bits := by
  rcases h.findLoop_mem p.bits t.universeNet ⟨0, r⟩ (h.cover.root_mem p.stream)
    h.bits_root.symm with ⟨hmem, hbits⟩
  unfold Reaches inetFind at hb
  rw [h.root] at hb
  have heq : (inetFindLoop fam t p p.bits t.universeNet ⟨0, r⟩).2 = ⟨p.bits, b⟩ :=
    Option.some.inj hb
  rw [heq] at hmem hbits
  exact ⟨hmem, hbits.symm⟩

lemma Found.longest (hf : Found t r T p net blk) {c : DbObject} (hc : T c p.stream)
    (hle : t.bits c ≤ p.bits) : t.bits c ≤ blk.bits := by
  by_cases hlt : blk.bits < p.bits
  · rw [hf.bits]
    exact h.cover.le_of_blocked hf.mem (hf.blocked hlt) hc hle
  · exact le_trans hle (Nat.le_of_not_lt hlt)

/-- The net that `Inet_Find` returns belongs to the deepest net block at or above the prefix. -/
theorem Found.net_deepest (hf : Found t r T p net blk) :
    ∃ c, Deepest t.bits (fun c => T c p.stream ∧ t.bits c ≤ p.bits ∧ t.items .net c ≠ []) c ∧
      net = inetFirstItem t c .net := by
  rcases hf.net with ⟨c, ⟨⟨hc, hle, hne⟩, hmax⟩, hfirst⟩
  refine ⟨c, ⟨⟨hc, le_trans hle hf.le, hne⟩, ?_⟩, hfirst⟩
  rintro c' ⟨hc', hle', hne'⟩
  exact hmax c' ⟨hc', hf.longest h hc' hle', hne'⟩

end

end Find

namespace Filing

variable {a : BitStream} {type : InetObjType}

section

variable (h : Filing fam t r T dir)

include h

lemma bits_of_mem_items {o : DbObject} (hb : T b a) (ho : o ∈ t.items type b) :
    match type with
    | .node => t.bits b = fam.bits
    | _ => t.bits b < fam.bits := by
  rcases h.filed_only hb ho with ⟨p, hdir, _, hbits⟩
  have hacc := h.accepted hdir
  cases type with
  | net => exact hbits ▸ hacc.2.1
  | node => exact hbits.trans hacc.2
  | range => exact hbits ▸ hacc.2

lemma items_eq_nil_of_slot (hb : T b a) (hbits : t.bits b = fam.bits) (htype : type ≠ .node) :
    t.items type b = [] := by
  rw [List.eq_nil_iff_forall_not_mem]
  intro o ho
  have hlt := h.bits_of_mem_items hb ho
  cases type with
  | net => exact absurd hbits (ne_of_lt hlt)
  | node => exact htype rfl
  | range => exact absurd hbits (ne_of_lt hlt)

lemma nodes_eq_nil_of_block (hb : T b a) (hbits : t.bits b < fam.bits) : t.items .node b = [] := by
  rw [List.eq_nil_iff_forall_not_mem]
  intro o ho
  exact absurd (h.bits_of_mem_items hb ho) (ne_of_lt hbits)

lemma find (p : InetPrefix) :
    ∃ net blk, inetFind fam t p = (net, some blk) ∧ Found t r T p net blk := by
  rcases h.universe_first with ⟨u, hu, hfirst⟩
  have hroot : t.items .net r ≠ [] := by
    intro hnil
    simp [inetFirstItem, hnil] at hfirst
  have hstart : Found t r T p (inetFindLoop fam t p p.bits t.universeNet ⟨0, r⟩).1
      (inetFindLoop fam t p p.bits t.universeNet ⟨0, r⟩).2 := by
    refine h.shape.findLoop_found
      (fun hb hbits => h.items_eq_nil_of_slot hb hbits (by decide)) _ _ _ ?_ ?_ ?_ ?_ ?_
    · exact Nat.sub_le _ _
    · exact h.shape.cover.root_mem _
    · exact h.shape.bits_root.symm
    · exact Nat.zero_le _
    · refine ⟨r, ⟨⟨h.shape.cover.root_mem _, ?_, hroot⟩, ?_⟩, ?_⟩
      · exact le_of_eq h.shape.bits_root
      · rintro c' ⟨_, hle, _⟩
        exact Nat.le_trans hle (Nat.zero_le _)
      · rw [hu, hfirst]
  refine ⟨_, _, ?_, hstart⟩
  rw [inetFind, h.shape.root]

/-- `Inet_Find` reaches exactly the block of the prefix's own length, if there is one. -/
theorem reaches_iff (p : InetPrefix) (b : DbObject) :
    Reaches fam t p b ↔ T b p.stream ∧ t.bits b = p.bits := by
  rcases h.find p with ⟨net, blk, hfind, hfound⟩
  unfold Reaches
  rw [hfind]
  constructor
  · intro heq
    obtain rfl : blk = ⟨p.bits, b⟩ := Option.some.inj heq
    exact ⟨hfound.mem, hfound.bits.symm⟩
  · rintro ⟨hb, hbits⟩
    have hge := hfound.longest h.shape hb (le_of_eq hbits)
    have hlen : blk.bits = p.bits := le_antisymm hfound.le (hbits ▸ hge)
    have hblock : blk.block = b :=
      h.shape.cover.unique hfound.mem hb
        ((hfound.bits.symm.trans hlen).trans hbits.symm)
    rcases blk with ⟨n, c⟩
    cases hlen
    cases hblock
    rfl

end

end Filing

/-! ## The two forms -/

lemma Shape.covers_eq (h : Shape fam t r T) : (fun b a => t.Covers a b) = T := by
  funext b a
  exact propext (h.covers_iff b a)

lemma WellFormed.filing (h : WellFormed fam st dir) :
    ∃ r, Filing fam st.tree r (fun b a => st.tree.Covers a b) dir := by
  rcases h.universe_first with ⟨r, u, hr, hu, hfirst⟩
  have hshape := h.blocks.shape hr
  refine ⟨r,
    { shape := hshape
      universe_first := ⟨u, hu, hfirst⟩
      accepted := h.accepted
      filed := ?_
      filed_only := ?_
      listed_once := h.listed_once
      storage := h.storage }⟩
  · intro o e he
    rcases h.filed he with ⟨b, hb, ho⟩
    rcases hshape.mem_of_reaches hb with ⟨hmem, hbits⟩
    exact ⟨b, hmem, hbits, ho⟩
  · intro a b type o hb ho
    rcases h.filed_only hb ho with ⟨p, hdir, hreach⟩
    exact ⟨p, hdir, hshape.mem_of_reaches hreach⟩

lemma Filing.wellFormed (h : Filing fam st.tree r T dir)
    (hparent : ∀ {o e}, dir o = some e → e.type ≠ .range →
      IsParent st.tree T e (st.net.netof o)) : WellFormed fam st dir := by
  have hT := h.shape.covers_eq
  refine
    { blocks := h.shape.blockTree
      universe_first := ?_
      accepted := h.accepted
      filed := ?_
      filed_only := ?_
      listed_once := ?_
      parent := ?_
      storage := hT.symm ▸ h.storage }
  · rcases h.universe_first with ⟨u, hu, hfirst⟩
    exact ⟨r, u, h.shape.root, hu, hfirst⟩
  · intro o e he
    rcases h.filed he with ⟨b, hb, hbits, ho⟩
    exact ⟨b, (h.reaches_iff e.pfx b).2 ⟨hb, hbits⟩, ho⟩
  · intro a b type o hb ho
    rw [h.shape.covers_iff] at hb
    rcases h.filed_only hb ho with ⟨p, hdir, hmem, hbits⟩
    exact ⟨p, hdir, (h.reaches_iff p b).2 ⟨hmem, hbits⟩⟩
  · intro a b type hb
    rw [h.shape.covers_iff] at hb
    exact h.listed_once type hb
  · intro o e he htype
    rw [hT]
    exact hparent he htype

end Inet
end Unameit
