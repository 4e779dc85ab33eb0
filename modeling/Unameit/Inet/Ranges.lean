import Unameit.Inet.Delete

/-!
# Inet.Ranges — filing and removing ranges

A range is filed at the common prefix of its two ends, but its prefix keeps all the bits of the
start address.  `Inet_New_Block` computes the run of indices of a new block from these bits, so
that a block for a range is only filed in the right place when it exists already or the start
address has no bits set up to the next boundary: `inetInsert_range_wellFormed_iff`.

Removing a range recycles its block when that carries nothing else, which has the same problem.
-/

namespace Unameit
namespace Inet

open HoleSeq (nth)
open BitStream (Agree window)

/-! ## A block that is not aligned -/

variable {c : DbObject} {t : Tree}

variable {fam : Family} {r b : DbObject} {p : InetPrefix} {T : Coverage}
  {dir : Directory}

section Misaligned

variable {t' : Tree} {new : DbObject}

/-- The way down to the parent of a new block does not change. -/
theorem Grafted.covers (g : Grafted fam t t' p b new) (hst : Storage t fun c a => t.Covers a c)
    {a : BitStream} (hblocks : BlockTree fam t) (hc : t.Covers a c) (hle : t.bits c ≤ t.bits b) :
    t'.Covers a c := by
  induction hc with
  | root hr => exact .root (g.rootBlock.trans hr)
  | @sub c s hc hs ih =>
    have hlt := (hblocks.entry hc hs).2.2.2.1
    have hcb : c ≠ b := by
      rintro rfl
      omega
    have hnew : c ≠ new := by
      rintro rfl
      exact hst.outside g.spare hc
    refine .sub (ih (by omega)) ?_
    rw [g.bits, Function.update_of_ne hnew, g.subs c hcb hnew]
    exact hs

/-- A block that is not aligned fills the wrong run of its parent. -/
theorem Grafted.not_blockTree (g : Grafted fam t t' p b new)
    (h : Shape fam t r T) (hst : Storage t T) (hb : T b p.stream) (hlt : t.bits b < p.bits)
    (halign : ¬ p.AlignedAt (newBits p (t.bits b))) : ¬ BlockTree fam t' := by
  have hT := h.covers_eq
  have hcover : t'.Covers p.stream b :=
    g.covers (hT.symm ▸ hst) h.blockTree ((h.covers_iff b _).2 hb) (le_refl _)
  have hne : b ≠ new := by
    rintro rfl
    exact hst.outside g.spare hb
  have hbits : t'.bits b = t.bits b := by
    rw [g.bits, Function.update_of_ne hne]
  have hnew : t'.bits new = newBits p (t.bits b) := g.bits_new
  have hcount : 0 < 2 ^ (boundary (t.bits b) - newBits p (t.bits b)) := Nat.pow_pos (by norm_num)
  have hmod : subIndex p (t.bits b) % 2 ^ (boundary (t.bits b) - newBits p (t.bits b)) ≠ 0 := by
    rw [ne_eq, InetPrefix.AlignedAt.subIndex_mod_iff (lt_newBits hlt) (newBits_le_boundary p _)]
    exact halign
  intro hblocks
  have hentry : nth (t'.subs b) (subIndex p (t.bits b)) = some new := by
    rw [g.sub_parent, if_pos ⟨le_refl _, by omega⟩]
  have hrun := hblocks.run hcover hentry (subIndex p (t.bits b) - 1)
  rw [hbits, hnew] at hrun
  -- The index before the run belongs to the same aligned run, but was not filled.
  have hsame : (subIndex p (t.bits b) - 1) / 2 ^ (boundary (t.bits b) - newBits p (t.bits b)) =
      subIndex p (t.bits b) / 2 ^ (boundary (t.bits b) - newBits p (t.bits b)) := by
    rw [Nat.div_eq_iff hcount]
    have hsplit := Nat.div_add_mod (subIndex p (t.bits b))
      (2 ^ (boundary (t.bits b) - newBits p (t.bits b)))
    rw [mul_comm] at hsplit
    omega
  have hprev := hrun.2 hsame
  have hpos : 0 < subIndex p (t.bits b) := by
    rcases Nat.eq_zero_or_pos (subIndex p (t.bits b)) with hzero | hpos
    · exact absurd (by rw [hzero, Nat.zero_mod]) hmod
    · exact hpos
  rw [g.sub_parent, if_neg (by omega)] at hprev
  rcases h.mem_of_sub hb ⟨_, hprev⟩ with ⟨a, _, _, hnewmem, _⟩
  exact hst.outside g.spare hnewmem

/-- The loop of `Inet_Insert` ends with a block that is not aligned. -/
theorem inetInsertLoop_not_blockTree (fuel : ℕ) {st : State} (h : Filing fam st.tree r T dir)
    {blk : InetBlock} (hfuel : p.bits - blk.bits ≤ fuel) (hmem : T blk.block p.stream)
    (hbits : blk.bits = st.tree.bits blk.block) (hlt : blk.bits < p.bits) (hp : p.bits ≤ fam.bits)
    (hblocked : ∀ s, (st.tree.layout r).child blk.block p.stream = some s →
      p.bits < st.tree.bits s) (halign : ¬ p.AlignedAt p.bits) :
    ¬ BlockTree fam (inetInsertLoop fam p fuel st blk).1.tree := by
  induction fuel generalizing st T blk with
  | zero => omega
  | succ fuel ih =>
    rw [inetInsertLoop, if_pos hlt]
    show ¬ BlockTree fam (inetInsertLoop fam p fuel (inetNewBlock fam st p blk).1
      (inetNewBlock fam st p blk).2).1.tree
    by_cases hend : newBits p blk.bits = p.bits
    · rcases inetNewBlock_grafted fam h.storage p hmem hbits with ⟨g, hnew⟩
      have hbroken := g.not_blockTree h.shape h.storage hmem (hbits ▸ hlt) (by
        rw [← hbits, hend]
        exact halign)
      have hstop : ∀ st' blk', blk'.bits = p.bits →
          inetInsertLoop fam p fuel st' blk' = (st', blk') := by
        intro st' blk' hstop
        cases fuel with
        | zero => rfl
        | succ fuel => rw [inetInsertLoop, if_neg (by omega)]
      rw [hstop _ _ (by rw [hnew, ← hbits, hend])]
      exact hbroken
    · have hstep : p.AlignedAt (newBits p blk.bits) := by
        rw [newBits_eq_boundary hend]
        exact InetPrefix.AlignedAt.of_boundary p _
      rcases inetNewBlock_dug h hmem hbits hlt hp hblocked hstep with
        ⟨T₁, hfile, _, hmem₁, hnew, hbits₁, hblocked₁⟩
      have hgrow := lt_newBits hlt
      have hfit : newBits p blk.bits < p.bits :=
        lt_of_le_of_ne (newBits_le p blk.bits) hend
      refine ih hfile ?_ hmem₁ (hnew.trans hbits₁.symm) ?_ (hblocked₁ hfit)
      · omega
      · rw [hnew]
        exact hfit

end Misaligned

/-! ## Filing a range -/

/-- The item lists play no role in the shape of the tree. -/
theorem covers_setItems_iff (t : Tree) (type : InetObjType) (c : DbObject) (l : List DbObject)
    (a : BitStream) (b : DbObject) : (t.setItems type c l).Covers a b ↔ t.Covers a b := by
  constructor
  · intro h
    induction h with
    | root hr => exact .root hr
    | sub _ hs ih => exact .sub ih hs
  · intro h
    induction h with
    | root hr => exact .root hr
    | sub _ hs ih => exact .sub ih hs

lemma BlockTree.of_setItems {type : InetObjType} {l : List DbObject}
    (h : BlockTree fam (t.setItems type c l)) : BlockTree fam t :=
  { root := h.root
    entry := fun hb hs => h.entry ((covers_setItems_iff t type c l _ _).2 hb) hs
    run := fun hb hs => h.run ((covers_setItems_iff t type c l _ _).2 hb) hs }

/-- Inserting a range into a well-formed family keeps it well formed, with exactly one item more,
if and only if the block for its common prefix exists already or the start of the range has no
bits set between the length of the common prefix and the next boundary. -/
theorem inetInsert_range_wellFormed_iff {fam : Family} {st : State} {dir : Directory}
    {o : DbObject} (start last : CString) {p : InetPrefix} (h : WellFormed fam st dir)
    (hnew : dir o = none) (hp : inetRangePrefix fam st.tree o start last = .ok p) :
    WellFormed fam (inetInsert fam st p .range o) (Function.update dir o (some ⟨.range, p⟩)) ↔
      p.AlignedAt p.bits ∨ ∃ b, Reaches fam st.tree p b := by
  have hacc := inetRangePrefix_accepted hp
  constructor
  · intro hwf
    by_contra hbad
    rcases not_or.1 hbad with ⟨halign, hnone⟩
    rcases h.filing with ⟨r, hfile⟩
    rcases hfile.find p with ⟨net, found, hfind, hfound⟩
    have hlt : found.bits < p.bits := by
      refine lt_of_le_of_ne hfound.le fun heq => hnone ⟨found.block, ?_⟩
      rw [Reaches, hfind, ← heq]
    have hbroken := inetInsertLoop_not_blockTree p.bits hfile (Nat.sub_le _ _) hfound.mem
      hfound.bits hlt hacc.bits_le (hfound.blocked hlt) halign
    have hblocks := hwf.blocks
    rw [inetInsert, hfind] at hblocks
    exact hbroken hblocks.of_setItems
  · exact h.insert hnew hacc

def octetNet : State :=
  inetInsert octetFamily octetUniverse ⟨4, [0x40]⟩ .net 1

def octetNetDir : Directory :=
  Function.update (Function.update (fun _ => none) 0 (some ⟨.net, ⟨0, [0x00]⟩⟩))
    1 (some ⟨.net, ⟨4, [0x40]⟩⟩)

lemma octetNet_wellFormed : WellFormed octetFamily octetNet octetNetDir :=
  octetUniverse_wellFormed.insert (o := 1) (e := ⟨.net, ⟨4, [0x40]⟩⟩) rfl
    (octet_net_accepted _ _ (by decide) (by decide)) (.inl (.inl rfl))

/-- The range from 80 to 9f has the prefix 80/3, which is aligned. -/
theorem inetInsert_range_wellFormed_iff_aligned :
    inetRangePrefix octetFamily octetNet.tree 2 ['8', '0'] ['9', 'f'] = .ok ⟨3, [0x80]⟩ ∧
      WellFormed octetFamily (inetInsert octetFamily octetNet ⟨3, [0x80]⟩ .range 2)
        (Function.update octetNetDir 2 (some ⟨.range, ⟨3, [0x80]⟩⟩)) := by
  refine ⟨rfl, (inetInsert_range_wellFormed_iff ['8', '0'] ['9', 'f'] octetNet_wellFormed
    rfl rfl).2 (.inl (.inr ?_))⟩
  decide

/-- The range from 10 to 2f has the prefix 10/2.  Its block fills entries 1 to 4 of the root block
instead of entries 0 to 3, and net 1 at 40/4 is lost. -/
theorem inetInsert_range_loses_net : WellFormed octetFamily octetNet octetNetDir ∧
    octetNetDir 1 = some ⟨.net, ⟨4, [0x40]⟩⟩ ∧ octetNetDir 2 = none ∧
    inetRangePrefix octetFamily octetNet.tree 2 ['1', '0'] ['2', 'f'] = .ok ⟨2, [0x10]⟩ ∧
    nth ((inetInsert octetFamily octetNet ⟨2, [0x10]⟩ .range 2).tree.subs 0) 0 = none ∧
    (∀ i, 1 ≤ i → i ≤ 4 →
      nth ((inetInsert octetFamily octetNet ⟨2, [0x10]⟩ .range 2).tree.subs 0) i = some 2) ∧
    (∀ b, ¬ Reaches octetFamily (inetInsert octetFamily octetNet ⟨2, [0x10]⟩ .range 2).tree
      ⟨4, [0x40]⟩ b) ∧
    ¬ WellFormed octetFamily (inetInsert octetFamily octetNet ⟨2, [0x10]⟩ .range 2)
      (Function.update octetNetDir 2 (some ⟨.range, ⟨2, [0x10]⟩⟩)) := by
  refine ⟨octetNet_wellFormed, rfl, rfl, rfl, rfl, ?_, ?_, ?_⟩
  · intro i hlow hhigh
    interval_cases i <;> rfl
  · intro b hb
    cases hb
  · intro hwf
    rcases hwf.filed (o := 1) (e := ⟨.net, ⟨4, [0x40]⟩⟩) rfl with ⟨b, hb, _⟩
    cases hb

/-! ## Removing a range -/

/-- The block `U` on the way to `p` is removed together with the range `o` that is filed at `p`:
from `U` down to `p` no block carries a net or another range, and none below `U` that ends at a
boundary has anything but the blocks on the way. -/
structure RangeDoomed (t : Tree) (T : Coverage) (o : DbObject) (p : InetPrefix)
    (U : DbObject) : Prop where
  mem : T U p.stream
  le : t.bits U ≤ p.bits
  empty : ∀ A, T A p.stream → t.bits U ≤ t.bits A → t.bits A ≤ p.bits →
    t.items .net A = [] ∧ ∀ x ∈ t.items .range A, x = o
  lone : ∀ A, T A p.stream → t.bits U < t.bits A → t.bits A ≤ p.bits → t.bits A % 4 = 0 →
    ∀ c a, T A a → T c a → t.bits A < t.bits c → T c p.stream ∧ t.bits c ≤ p.bits

def RangeSafe (t : Tree) (T : Coverage) (o : DbObject) (p : InetPrefix) : Prop :=
  ∀ U, RangeDoomed t T o p U → p.AlignedAt (t.bits U)

section Remove

variable {st : State} {o : DbObject}

lemma Filing.ne_universe {e : Entry} (h : Filing fam t r T dir) (ho : dir o = some e)
    (htype : e.type ≠ .net) : t.universeNet ≠ some o := by
  intro huniv
  rcases h.universe_first with ⟨u, hu, hfirst⟩
  obtain rfl : u = o := Option.some.inj (hu.symm.trans huniv)
  have hmem : u ∈ t.items .net r := List.mem_of_mem_head? hfirst
  rcases h.filed_only (h.shape.cover.root_mem e.pfx.stream) hmem with ⟨q, hq, _⟩
  rw [ho] at hq
  cases hq
  exact htype rfl

/-- What the recycling removes, in terms of the tree before the deletion. -/
theorem Located.rangeDoomed (hloc : Located st.tree T o ⟨.range, p⟩ b)
    (h : Filing fam st.tree r T dir) {U : DbObject}
    (hU : Absorbed (droppedState st b .range o).tree T p p.bits U) :
    RangeDoomed st.tree T o p U := by
  refine ⟨hU.mem, hU.le, fun A hA hUA hAp => ?_, hU.lone⟩
  rcases hU.empty A hA hUA hAp with ⟨hnet, hrange⟩
  refine ⟨hnet, fun x hx => ?_⟩
  by_contra hxo
  have hmem : x ∈ (droppedState st b .range o).tree.items .range A := by
    refine (mem_setItems_erase (e := ⟨.range, p⟩) (h.listed_once .range hloc.mem)).2 ⟨hx, ?_⟩
    exact fun hc => hxo hc.1
  rw [hrange] at hmem
  cases hmem

/-- Removing a range, when only aligned blocks are recycled. -/
theorem Located.deleted_range (hloc : Located st.tree T o ⟨.range, p⟩ b)
    (h : Filing fam st.tree r T dir) (ho : dir o = some ⟨.range, p⟩)
    (hsafe : RangeSafe st.tree T o p) (now : ℕ) :
    ∃ t' T', inetDelete fam st p .range o now =
        some { droppedState st b .range o with
          tree := t'
          net := inetSetNetof (st.net.setItemBlock o none) o .range none } ∧
      Deleted fam st
        { droppedState st b .range o with
          tree := t'
          net := inetSetNetof (st.net.setItemBlock o none) o .range none } r T T' dir o ∧
      Shrunk (droppedState st b .range o).tree t' T T' ∧
      ((st.tree.items .range b).erase o = [] → st.tree.items .net b = [] → p.bits % 4 ≠ 0 →
        ∀ a, ¬ T' b a) := by
  have huniv := h.ne_universe ho (by simp)
  have hdrop : Filing fam (droppedState st b .range o).tree r T (Function.update dir o none) :=
    h.drop ho hloc huniv
  rcases inetDelete_eq h hloc huniv now with ⟨n, _, heq⟩
  have hnets : (droppedState st b .range o).tree.items .net = st.tree.items .net := by
    funext c
    exact setItems_of_ne _ _ (.inl (by decide))
  have hpar : ∀ {x e}, x ≠ o → IsParent st.tree T e (st.net.netof x) →
      IsParent (droppedState st b .range o).tree T e
        ((inetSetNetof (st.net.setItemBlock o none) o .range none).netof x) := by
    intro x e hxo hold
    have hnetof : (inetSetNetof (st.net.setItemBlock o none) o .range none).netof x =
        st.net.netof x := Function.update_of_ne hxo _ _
    rw [hnetof]
    exact (isParent_setItems_of_head (t := st.tree) (b := b) .range
      ((st.tree.items .range b).erase o) (by simp) e _).2 hold
  by_cases hlast : (st.tree.items .range b).erase o = [] ∧ st.tree.items .net b = []
  · have hbits : (droppedState st b .range o).tree.bits b = p.bits := hloc.bits
    have hbare : (droppedState st b .range o).tree.items .net b = [] ∧
        (droppedState st b .range o).tree.items .range b = [] :=
      ⟨by rw [hnets]; exact hlast.2, (setItems_self _ _ _ _).trans hlast.1⟩
    have hlt : (droppedState st b .range o).tree.bits b < fam.bits := by
      rw [hbits]
      exact (h.accepted ho).2
    rcases hdrop.empty_of_bare hloc.mem hlt hbare.1 hbare.2 with ⟨hbr, hempty⟩
    rcases inetGcBlock_shrunk (fam.bits + 1) hdrop hloc.mem hbr hempty (by omega) (by
      intro U hU
      rw [hbits] at hU
      exact hsafe U (hloc.rangeDoomed h hU)) with ⟨T', hfile, hshr, hodd⟩
    rw [hbits] at hfile hshr hodd
    refine ⟨_, T', ?_, ⟨hfile, fun hxo _ hold => ?_⟩, hshr, fun _ _ => hodd⟩
    · have hfirst : inetFirstItem (droppedState st b .range o).tree b .net = none := by
        rw [inetFirstItem, hbare.1]
        rfl
      rw [heq, inetDeleteDropped]
      simp only [hlast.1, List.head?_nil, hfirst, and_self, if_true, Option.map_some]
      rfl
    · exact (hshr.isParent_iff _ _).2 (hpar hxo hold)
  · refine ⟨_, T, ?_, ⟨hdrop, fun hxo _ hold => hpar hxo hold⟩, Shrunk.refl _ T,
      fun h₁ h₂ => absurd ⟨h₁, h₂⟩ hlast⟩
    have hstop : ¬ (((st.tree.items .range b).erase o).head? = none ∧
        inetFirstItem (droppedState st b .range o).tree b .net = none) := by
      rw [inetFirstItem, List.head?_eq_none_iff, List.head?_eq_none_iff]
      exact hlast
    rw [heq, inetDeleteDropped]
    simp only [if_neg hstop, Option.map_some]
    rfl

end Remove

end Inet
end Unameit
