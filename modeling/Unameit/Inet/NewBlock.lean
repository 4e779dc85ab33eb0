import Unameit.Inet.WellFormed

/-!
# Inet.NewBlock — creating blocks on the way to a prefix

`Inet_New_Block` hangs one block between the block that `Inet_Find` reached and the prefix that is
to be filed.  `Grafted` lists what it writes; as long as the prefix has no bits set between its
length and the next boundary, this is a graft of the prefix tree, and a well-formed family stays
well formed with the same content.
-/

namespace Unameit
namespace Inet

open Function (update update_self update_of_ne)

variable {n : ℕ} {st : State} {T : Coverage} {blk : InetBlock} {a : BitStream}
  {p : InetPrefix}

open HoleSeq (nth put putRun copyRun)
open BitStream (Agree window)

/-! ## Recycling objects -/

variable {t : Tree}

section Storage

structure Taken (t t' : Tree) (new : DbObject) : Prop where
  spare : t.Spare new
  bits : t'.bits = t.bits
  super : t'.super = t.super
  subs : t'.subs = t.subs
  items : t'.items = t.items
  stamp : t'.stamp = t.stamp
  rootBlock : t'.rootBlock = t.rootBlock
  universeNet : t'.universeNet = t.universeNet
  spare_iff : ∀ o, t'.Spare o ↔ t.Spare o ∧ o ≠ new
  nodup : ∀ cls, (t'.free cls).Nodup
  disjoint : ∀ {o}, o ∈ t'.free .block → o ∉ t'.free .slot
  created : ∀ {cls o}, o ∈ t'.free cls → o < t'.nextObject

lemma Storage.taken (h : Storage t T) (cls : BlockClass) :
    Taken t (udbEditFreeObject t cls).2 (udbEditFreeObject t cls).1 := by
  cases hfree : t.free cls with
  | nil =>
    have hedit : udbEditFreeObject t cls =
        (t.nextObject, { t with nextObject := t.nextObject + 1 }) := by
      simp [udbEditFreeObject, hfree]
    rw [hedit]
    refine ⟨.inr (le_refl _), rfl, rfl, rfl, rfl, rfl, rfl, rfl, ?_, h.nodup,
      h.disjoint, fun ho => Nat.lt_succ_of_lt (h.created ho)⟩
    intro o
    constructor
    · rintro (⟨c, hc⟩ | hle)
      · exact ⟨.inl ⟨c, hc⟩, ne_of_lt (h.created hc)⟩
      · exact ⟨.inr (Nat.le_of_succ_le hle), ne_of_gt hle⟩
    · rintro ⟨⟨c, hc⟩ | hle, hne⟩
      · exact .inl ⟨c, hc⟩
      · exact .inr (lt_of_le_of_ne hle (Ne.symm hne))
  | cons new rest =>
    have hedit : udbEditFreeObject t cls =
        (new, { t with free := update t.free cls rest }) := by
      simp [udbEditFreeObject, hfree]
    rw [hedit]
    have hnodup := h.nodup cls
    rw [hfree, List.nodup_cons] at hnodup
    have hsub : ∀ c o, o ∈ update t.free cls rest c → o ∈ t.free c := by
      intro c o ho
      by_cases hc : c = cls
      · subst hc
        rw [update_self] at ho
        rw [hfree]
        exact List.mem_cons_of_mem _ ho
      · rwa [update_of_ne hc] at ho
    have hnew : new ∈ t.free cls := by
      rw [hfree]
      exact List.mem_cons_self
    refine ⟨.inl ⟨cls, hnew⟩, rfl, rfl, rfl, rfl, rfl, rfl, rfl, ?_, ?_, ?_, ?_⟩
    · intro o
      constructor
      · rintro (⟨c, hc⟩ | hle)
        · refine ⟨.inl ⟨c, hsub c o hc⟩, ?_⟩
          rintro rfl
          -- `new` occurs neither in the rest of its own list nor in the other list.
          by_cases hcls : c = cls
          · subst hcls
            simp only [update_self] at hc
            exact hnodup.1 hc
          · have hother := hsub c o hc
            cases c <;> cases cls
            · exact hcls rfl
            · exact h.disjoint hother hnew
            · exact h.disjoint hnew hother
            · exact hcls rfl
        · exact ⟨.inr hle, ne_of_gt (lt_of_lt_of_le (h.created hnew) hle)⟩
      · rintro ⟨⟨c, hc⟩ | hle, hne⟩
        · refine .inl ⟨c, ?_⟩
          by_cases hcls : c = cls
          · subst hcls
            rw [hfree, List.mem_cons] at hc
            simpa using hc.resolve_left hne
          · simpa [update_of_ne hcls] using hc
        · exact .inr hle
    · intro c
      by_cases hcls : c = cls
      · subst hcls
        simpa using hnodup.2
      · simpa [update_of_ne hcls] using h.nodup c
    · intro o ho hs
      exact h.disjoint (hsub _ _ ho) (hsub _ _ hs)
    · intro c o ho
      exact h.created (hsub c o ho)

end Storage

/-- `relink` changes the `super` of exactly the sub-blocks in the run. -/
theorem relink_eq (super : DbObject → Option DbObject) (seq : List (Option DbObject))
    (block : DbObject) (n : ℕ) (o : DbObject) :
    (∀ i, i < n → nth seq i ≠ some o) → relink super seq block n o = super o := by
  induction n with
  | zero =>
    intro _
    rfl
  | succ n ih =>
    intro h
    rw [relink]
    cases hn : nth seq n with
    | none => exact ih fun i hi => h i (Nat.lt_succ_of_lt hi)
    | some o' =>
      have hne : o ≠ o' := by
        rintro rfl
        exact h n (Nat.lt_succ_self n) hn
      show update (relink super seq block n) o' (some block) o = super o
      rw [update_of_ne hne]
      exact ih fun i hi => h i (Nat.lt_succ_of_lt hi)

lemma relink_of_mem (super : DbObject → Option DbObject) (seq : List (Option DbObject))
    (block : DbObject) {i : ℕ} {o : DbObject} (hi : i < n) (ho : nth seq i = some o) :
    relink super seq block n o = some block := by
  induction n with
  | zero => exact absurd hi (Nat.not_lt_zero i)
  | succ n ih =>
    rw [relink]
    by_cases hin : i = n
    · subst hin
      rw [ho]
      show update (relink super seq block i) o (some block) o = some block
      rw [update_self]
    · have hlt : i < n := by omega
      cases hn : nth seq n with
      | none => exact ih hlt
      | some o' =>
        show update (relink super seq block n) o' (some block) o = some block
        by_cases hoo : o = o'
        · rw [hoo, update_self]
        · rw [update_of_ne hoo]
          exact ih hlt

/-! ## One new block -/

def newBits (p : InetPrefix) (n : ℕ) : ℕ :=
  min (boundary n) p.bits

structure Grafted (fam : Family) (t t' : Tree) (p : InetPrefix) (b new : DbObject) : Prop where
  spare : t.Spare new
  rootBlock : t'.rootBlock = t.rootBlock
  universeNet : t'.universeNet = t.universeNet
  items : t'.items = t.items
  stamp : ∀ o, o ≠ new → t'.stamp o = t.stamp o
  stamp_new : newBits p (t.bits b) = fam.bits → t'.stamp new = inetMaxStamp
  bits : t'.bits = update t.bits new (newBits p (t.bits b))
  sub_new : ∀ i, nth (t'.subs new) i =
    if newBits p (t.bits b) < fam.bits ∧ i < 2 ^ (boundary (t.bits b) - newBits p (t.bits b)) then
      nth (t.subs b) (subIndex p (t.bits b) + i)
    else none
  sub_parent : ∀ i, nth (t'.subs b) i =
    if subIndex p (t.bits b) ≤ i ∧
        i < subIndex p (t.bits b) + 2 ^ (boundary (t.bits b) - newBits p (t.bits b)) then some new
    else nth (t.subs b) i
  subs : ∀ c, c ≠ b → c ≠ new → t'.subs c = t.subs c
  super_new : (∀ i, nth (t.subs b) i ≠ some new) → t'.super new = some b
  super_run : ∀ i o, nth (t'.subs new) i = some o → t'.super o = some new
  super : ∀ o, o ≠ new → (∀ i, nth (t'.subs new) i ≠ some o) → t'.super o = t.super o
  spare_iff : ∀ o, t'.Spare o ↔ t.Spare o ∧ o ≠ new
  nodup : ∀ cls, (t'.free cls).Nodup
  disjoint : ∀ {o}, o ∈ t'.free .block → o ∉ t'.free .slot
  created : ∀ {cls o}, o ∈ t'.free cls → o < t'.nextObject

lemma newBits_cases (p : InetPrefix) (n : ℕ) :
    (if boundary n > p.bits then p.bits else boundary n) = newBits p n ∧
      (if boundary n > p.bits then 1 <<< (boundary n - p.bits) else 1) =
        2 ^ (boundary n - newBits p n) := by
  unfold newBits
  by_cases h : boundary n > p.bits
  · rw [if_pos h, if_pos h, min_eq_right (le_of_lt h)]
    simp [Nat.shiftLeft_eq]
  · rw [if_neg h, if_neg h, min_eq_left (Nat.le_of_not_lt h)]
    simp

lemma inetNewBlock_grafted (fam : Family) (h : Storage st.tree T) (p : InetPrefix)
    (hmem : T blk.block a) (hbits : blk.bits = st.tree.bits blk.block) :
    Grafted fam st.tree (inetNewBlock fam st p blk).1.tree p blk.block
        (inetNewBlock fam st p blk).2.block ∧
      (inetNewBlock fam st p blk).2.bits = newBits p (st.tree.bits blk.block) := by
  rcases blk with ⟨n, b⟩
  simp only at hbits hmem
  subst hbits
  rcases newBits_cases p (st.tree.bits b) with ⟨hnew, hcount⟩
  unfold inetNewBlock
  simp only [← boundary.eq_def] at *
  rw [hnew, hcount]
  generalize hcls : (if newBits p (st.tree.bits b) = fam.bits then BlockClass.slot
    else BlockClass.block) = cls
  have htaken := h.taken cls
  rcases hedit : udbEditFreeObject st.tree cls with ⟨new, t⟩
  rw [hedit] at htaken
  simp only at htaken ⊢
  have hnewb : new ≠ b := by
    rintro rfl
    exact h.outside htaken.spare hmem
  have hblank : ∀ i, nth (t.subs new) i = none := by
    rw [htaken.subs]
    exact h.blank_subs htaken.spare
  -- The sub-blocks that are taken over, if the new block can have any.
  generalize hseq : (if newBits p (st.tree.bits b) < fam.bits then
    copyRun (t.subs b) (subIndex p (st.tree.bits b))
      (2 ^ (boundary (st.tree.bits b) - newBits p (st.tree.bits b))) else []) = seq
  have hsub : ∀ i, nth (if seq = [] then t.subs new else seq) i = nth seq i := by
    intro i
    split
    · rename_i hnil
      rw [hnil, hblank, HoleSeq.nth_nil]
    · rfl
  have hrun : ∀ i, nth seq i = if newBits p (st.tree.bits b) < fam.bits ∧
      i < 2 ^ (boundary (st.tree.bits b) - newBits p (st.tree.bits b)) then
        nth (st.tree.subs b) (subIndex p (st.tree.bits b) + i) else none := by
    intro i
    subst hseq
    by_cases hlt : newBits p (st.tree.bits b) < fam.bits
    · simp only [hlt, if_true, true_and]
      rw [HoleSeq.nth_copyRun, htaken.subs]
    · simp [hlt]
  refine ⟨?_, trivial⟩
  refine
    { spare := htaken.spare
      rootBlock := htaken.rootBlock
      universeNet := htaken.universeNet
      items := htaken.items
      stamp := ?_
      stamp_new := ?_
      bits := by rw [htaken.bits]
      sub_new := ?_
      sub_parent := ?_
      subs := ?_
      super_new := ?_
      super_run := ?_
      super := ?_
      spare_iff := htaken.spare_iff
      nodup := htaken.nodup
      disjoint := htaken.disjoint
      created := htaken.created }
  · intro o ho
    simp only
    split
    · rw [update_of_ne ho, htaken.stamp]
    · rw [htaken.stamp]
  · intro hfull
    rw [if_pos hfull] at hcls
    subst hcls
    simp
  · intro i
    simp only [update_of_ne hnewb, update_self]
    rw [hsub i, hrun i]
  · intro i
    simp only [update_self]
    rw [HoleSeq.nth_putRun, htaken.subs]
  · intro c hcb hcn
    simp only [update_of_ne hcb, update_of_ne hcn]
    rw [htaken.subs]
  · intro hnone
    simp only
    rw [relink_eq]
    · rw [update_self]
    · intro i _ hi
      rw [hrun i] at hi
      split at hi
      · exact hnone _ hi
      · cases hi
  · intro i o hi
    simp only [update_of_ne hnewb, update_self] at hi ⊢
    rw [hsub i] at hi
    refine relink_of_mem _ _ _ ?_ hi
    rw [hrun i] at hi
    split at hi
    · rename_i hlt
      exact hlt.2
    · cases hi
  · intro o ho hnone
    simp only [update_of_ne hnewb, update_self] at hnone ⊢
    rw [relink_eq, update_of_ne ho, htaken.super]
    intro i _ hi
    rw [← hsub i] at hi
    exact hnone i hi

/-! ## The tree with the new block -/

lemma newBits_le_boundary (p : InetPrefix) (n : ℕ) : newBits p n ≤ boundary n :=
  min_le_left _ _

lemma newBits_le (p : InetPrefix) (n : ℕ) : newBits p n ≤ p.bits :=
  min_le_right _ _

lemma lt_newBits (h : n < p.bits) : n < newBits p n := by
  have hpos := subBits_pos n
  refine Nat.lt_min.2 ⟨?_, h⟩
  rw [boundary]
  omega

/-- A block that is not yet at the prefix is created at a boundary. -/
theorem newBits_eq_boundary (h : newBits p n ≠ p.bits) : newBits p n = boundary n := by
  unfold newBits at *
  omega

def graftCover (T : Coverage) (p : InetPrefix) (n : ℕ) (new : DbObject) :
    Coverage :=
  fun c a => T c a ∨ (c = new ∧ Agree n p.stream a)

variable {fam : Family} {r : DbObject}

namespace Grafted

variable {t' : Tree} {b new : DbObject}

lemma new_not_mem (g : Grafted fam t t' p b new) (hst : Storage t T) (a : BitStream) : ¬ T new a :=
  hst.outside g.spare

lemma bits_of_mem (g : Grafted fam t t' p b new) (hst : Storage t T) {c : DbObject} (hc : T c a) :
    t'.bits c = t.bits c := by
  rw [g.bits]
  refine update_of_ne ?_ _ _
  rintro rfl
  exact g.new_not_mem hst a hc

lemma bits_new (g : Grafted fam t t' p b new) : t'.bits new = newBits p (t.bits b) := by
  rw [g.bits, update_self]

/-- A block that ends at the next boundary takes over nothing at `p`. -/
theorem child_eq_none (h : Shape fam t r T) (hb : T b p.stream)
    (hblocked : ∀ s, (t.layout r).child b p.stream = some s → p.bits < t.bits s)
    (hbound : newBits p (t.bits b) = boundary (t.bits b)) :
    (t.layout r).child b p.stream = none := by
  cases hs : (t.layout r).child b p.stream with
  | none => rfl
  | some s =>
    have hle := (h.fits hb hs).2.2
    have hlt := hblocked s hs
    have := newBits_le p (t.bits b)
    omega

section

variable (g : Grafted fam t t' p b new)

include g

/-- Indices below the new block and indices below its parent name the same sub-block. -/
theorem child_new (h : Shape fam t r T) (hb : T b p.stream) (hlt : t.bits b < p.bits)
    (hp : p.bits ≤ fam.bits)
    (hblocked : ∀ s, (t.layout r).child b p.stream = some s → p.bits < t.bits s)
    (halign : p.AlignedAt (newBits p (t.bits b))) (ha : Agree (newBits p (t.bits b)) p.stream a) :
    (t'.layout r).child new a = (t.layout r).child b a := by
  have hn := newBits_le_boundary p (t.bits b)
  have hbn := lt_newBits hlt
  rw [layout_child, g.bits_new, g.sub_new]
  rcases Nat.lt_or_eq_of_le hn with hinner | hbound
  · -- Strictly inside the indices of the parent, the block inherits a part of them.
    have hfull : newBits p (t.bits b) < fam.bits := by
      have := fam_bits fam
      rw [boundary_eq] at hinner
      omega
    have hsub : boundary (t.bits b) - newBits p (t.bits b) = subBits (newBits p (t.bits b)) := by
      rw [← boundary_of_lt (le_of_lt hbn) hinner, boundary]
      omega
    have hwin := BitStream.window_lt a (newBits p (t.bits b)) (subBits (newBits p (t.bits b)))
    rw [hsub, if_pos ⟨hfull, hwin⟩, halign.subIndex_add_window hbn hinner ha, layout_child]
  · have hnone := child_eq_none h hb hblocked hbound
    have hsame : (t.layout r).child b a = (t.layout r).child b p.stream := by
      have hag : Agree (boundary (t.bits b)) p.stream a := hbound ▸ ha
      have hwin : window a (t.bits b) (subBits (t.bits b)) =
          window p.stream (t.bits b) (subBits (t.bits b)) := by
        have hdiv := (Shape.window_div_iff (ha.symm.mono (le_of_lt hbn))
          (le_of_lt (hbound ▸ hbn)) (le_refl _)).2 hag.symm
        simpa using hdiv
      rw [layout_child, layout_child, hwin]
    rw [hsame, hnone]
    rw [layout_child, ← subIndex_eq_window] at hnone
    split
    · rename_i hi
      have hzero : window a (newBits p (t.bits b)) (subBits (newBits p (t.bits b))) = 0 := by
        simpa [hbound] using hi.2
      rw [hzero, add_zero, hnone]
    · rfl

lemma shape (h : Shape fam t r T) (hst : Storage t T) (hb : T b p.stream)
    (hlt : t.bits b < p.bits) (hp : p.bits ≤ fam.bits)
    (hblocked : ∀ s, (t.layout r).child b p.stream = some s → p.bits < t.bits s)
    (halign : p.AlignedAt (newBits p (t.bits b))) :
    Shape fam t' r (graftCover T p (newBits p (t.bits b)) new) := by
  have hn := newBits_le_boundary p (t.bits b)
  have hbn := lt_newBits hlt
  have hnew : ∀ a, ¬ T new a := g.new_not_mem hst
  have hbits : ∀ {c a}, T c a → t'.bits c = t.bits c := fun hc => g.bits_of_mem hst hc
  have hnot : ∀ {c a i s}, T c a → nth (t.subs c) i = some s → s ≠ new := by
    rintro c a i s hc hs rfl
    rcases h.exists_child hc hs with ⟨a', hc', _, hchild⟩
    exact hnew a' (h.cover.child_mem hc' hchild).1
  have hagb : ∀ {a}, T b a → Agree (t.bits b) p.stream a := fun ha => h.cover.agree_of_mem hb ha
  -- Reading the parent, inside and outside the run of the new block.
  have hin : ∀ a, Agree (newBits p (t.bits b)) p.stream a →
      (t'.layout r).child b a = some new := by
    intro a ha
    rw [layout_child, hbits hb, g.sub_parent,
      if_pos ((halign.mem_run_iff hbn hn (ha.mono (le_of_lt hbn))).2 ha)]
  have hout : ∀ a, T b a → ¬ Agree (newBits p (t.bits b)) p.stream a →
      (t'.layout r).child b a = (t.layout r).child b a := by
    intro a hba ha
    rw [layout_child, hbits hb, g.sub_parent,
      if_neg (fun hrun => ha ((halign.mem_run_iff hbn hn (hagb hba)).1 hrun)), layout_child]
  have hchildnew : ∀ a, Agree (newBits p (t.bits b)) p.stream a →
      (t'.layout r).child new a = (t.layout r).child b a :=
    fun a ha => g.child_new h hb hlt hp hblocked halign ha
  -- The sub-blocks of the new block are the children of the parent inside the prefix.
  have hruns : ∀ {i s}, nth (t'.subs new) i = some s →
      ∃ a, Agree (newBits p (t.bits b)) p.stream a ∧ (t.layout r).child b a = some s := by
    intro i s hs
    rw [g.sub_new] at hs
    split at hs
    · rename_i hi
      rcases h.exists_child hb hs with ⟨a, hba, hwin, hchild⟩
      refine ⟨a, (halign.mem_run_iff hbn hn (hagb hba)).1 ?_, hchild⟩
      rw [hwin]
      exact ⟨Nat.le_add_right _ _, Nat.add_lt_add_left hi.2 _⟩
    · cases hs
  refine ⟨g.rootBlock.trans h.root, ?_, ?_⟩
  · refine h.cover.graft rfl (fun c a hc => hbits hc) g.bits_new hb hbn ?_ hnew ?_ hchildnew hin
      hout ?_ ?_ ?_
    · intro s hs
      exact lt_of_le_of_lt (newBits_le p _) (hblocked s hs)
    · refine g.super_new fun i hi => ?_
      exact hnot hb hi rfl
    · intro c a hc hcb
      have hcn : c ≠ new := by
        rintro rfl
        exact hnew a hc
      rw [layout_child, layout_child, hbits hc, g.subs c hcb hcn]
    · intro s a ha hs
      rw [← hchildnew a ha] at hs
      exact g.super_run _ s hs
    · intro s a hs hnone
      refine g.super s ?_ ?_
      · rintro rfl
        exact hnew a hs
      · intro i hi
        rcases hruns hi with ⟨a', ha', hs'⟩
        exact hnone a' ha' hs'
  · rintro a c i s (hc | ⟨rfl, _⟩) hs
    · by_cases hcb : c = b
      · subst hcb
        rw [hbits hc]
        rw [g.sub_parent] at hs
        split at hs
        · rename_i hi
          obtain rfl : new = s := Option.some.inj hs
          rw [g.bits_new]
          exact ⟨lt_of_lt_of_le hlt hp,
            lt_of_lt_of_le hi.2 (halign.run_end_le hbn hn), hn⟩
        · rcases h.exists_child hc hs with ⟨a', hc', _, hchild⟩
          rw [hbits (h.cover.child_mem hc' hchild).1]
          exact h.fits hc hs
      · have hcn : c ≠ new := by
          rintro rfl
          exact hnew a hc
        rw [g.subs c hcb hcn] at hs
        rcases h.exists_child hc hs with ⟨a', hc', _, hchild⟩
        rw [hbits hc, hbits (h.cover.child_mem hc' hchild).1]
        exact h.fits hc hs
    · rcases hruns hs with ⟨a', ha', hchild⟩
      have hba : T b a' := h.cover.mem_of_agree hb (ha'.mono (le_of_lt hbn))
      have hsmem := (h.cover.child_mem hba hchild).1
      have hsle := (h.fits hba hchild).2.2
      have hslt := h.cover.len_lt_of_child hb hbn
        (fun s' hs' => lt_of_le_of_lt (newBits_le p _) (hblocked s' hs')) ha' hchild
      have hinner : newBits p (t.bits b) < boundary (t.bits b) := lt_of_lt_of_le hslt hsle
      have hbound := boundary_of_lt (le_of_lt hbn) hinner
      rw [g.sub_new] at hs
      split at hs
      · rename_i hi
        rw [g.bits_new, hbits hsmem, hbound]
        refine ⟨hi.1, ?_, hsle⟩
        have hsub : subBits (newBits p (t.bits b)) =
            boundary (t.bits b) - newBits p (t.bits b) := by
          rw [← hbound, boundary]
          omega
        rw [hsub]
        exact hi.2
      · cases hs

lemma storage (hst : Storage t T) (hb : T b p.stream) :
    Storage t' (graftCover T p (newBits p (t.bits b)) new) := by
  have hspare : ∀ {o}, t'.Spare o → t.Spare o ∧ o ≠ new := fun ho => (g.spare_iff _).1 ho
  refine
    { nodup := g.nodup
      disjoint := g.disjoint
      created := g.created
      outside := ?_
      blank_subs := ?_
      blank_items := ?_ }
  · rintro o a ho (hmem | ⟨heq, _⟩)
    · exact hst.outside (hspare ho).1 hmem
    · exact (hspare ho).2 heq
  · intro o ho
    have hob : o ≠ b := by
      rintro rfl
      exact hst.outside (hspare ho).1 hb
    rw [g.subs o hob (hspare ho).2]
    exact hst.blank_subs (hspare ho).1
  · intro o type ho
    rw [g.items]
    exact hst.blank_items type (hspare ho).1

/-- A new block carries nothing, so the content of the family stays the same. -/
theorem filing {dir : Directory} (h : Filing fam t r T dir) (hb : T b p.stream)
    (hlt : t.bits b < p.bits) (hp : p.bits ≤ fam.bits)
    (hblocked : ∀ s, (t.layout r).child b p.stream = some s → p.bits < t.bits s)
    (halign : p.AlignedAt (newBits p (t.bits b))) :
    Filing fam t' r (graftCover T p (newBits p (t.bits b)) new) dir := by
  have hempty : ∀ type, t'.items type new = [] := by
    intro type
    rw [g.items]
    exact h.storage.blank_items type g.spare
  refine
    { shape := g.shape h.shape h.storage hb hlt hp hblocked halign
      universe_first := ?_
      accepted := h.accepted
      filed := ?_
      filed_only := ?_
      listed_once := ?_
      storage := g.storage h.storage hb }
  · rw [g.universeNet, inetFirstItem, g.items]
    exact h.universe_first
  · intro o e he
    rcases h.filed he with ⟨c, hc, hbits, ho⟩
    refine ⟨c, .inl hc, (g.bits_of_mem h.storage hc).trans hbits, ?_⟩
    rw [g.items]
    exact ho
  · rintro a c type o (hc | ⟨rfl, _⟩) ho
    · rw [g.items] at ho
      rcases h.filed_only hc ho with ⟨q, hdir, hmem, hbits⟩
      exact ⟨q, hdir, .inl hmem, (g.bits_of_mem h.storage hc).trans hbits⟩
    · rw [hempty type] at ho
      cases ho
  · rintro a c type (hc | ⟨rfl, _⟩)
    · rw [g.items]
      exact h.listed_once type hc
    · rw [hempty type]
      exact List.nodup_nil

end

end Grafted

/-! ## Digging down to a prefix -/

structure Renewed (t : Tree) (nd nd' : NetData) : Prop where
  netof : nd'.netof = nd.netof
  itemBlock : nd'.itemBlock = nd.itemBlock
  info : nd'.info = nd.info
  netRanges : nd'.netRanges = nd.netRanges
  itemCheck : nd'.itemCheck = nd.itemCheck
  count : ∀ type c, (nd'.netCount type c = nd.netCount type c ∧
      nd'.netAny type c = nd.netAny type c) ∨
    (t.Spare c ∧ nd'.netCount type c = 0 ∧ nd'.netAny type c = none)

lemma Renewed.refl (t : Tree) (nd : NetData) : Renewed t nd nd :=
  { netof := rfl
    itemBlock := rfl
    info := rfl
    netRanges := rfl
    itemCheck := rfl
    count := fun _ _ => .inl ⟨rfl, rfl⟩ }

structure Dug (fam : Family) (p : InetPrefix) (st st' : State) (T T' : Coverage) :
    Prop where
  rootBlock : st'.tree.rootBlock = st.tree.rootBlock
  universeNet : st'.tree.universeNet = st.tree.universeNet
  items : st'.tree.items = st.tree.items
  mem : ∀ {c a}, T c a → T' c a
  fresh : ∀ {c a}, T' c a → ¬ T c a → st.tree.Spare c
  way : ∀ {c a}, T' c a → ¬ T c a → T' c p.stream
  bits : ∀ {c a}, T c a → st'.tree.bits c = st.tree.bits c
  spare : ∀ {o}, st'.tree.Spare o → st.tree.Spare o
  stamp : ∀ {o}, ¬ st.tree.Spare o → st'.tree.stamp o = st.tree.stamp o
  stamp_new : ∀ {c a}, T' c a → ¬ T c a → st'.tree.bits c = fam.bits →
    st'.tree.stamp c = inetMaxStamp
  natural_new : ∀ {c a}, T' c a → ¬ T c a → st'.tree.bits c % 4 = 0 ∨ st'.tree.bits c = p.bits
  blockCheck : st'.blockCheck = st.blockCheck
  net : Renewed st.tree st.net st'.net

namespace Dug

variable {st' st'' : State} {T' T'' : Coverage}

lemma refl (fam : Family) (p : InetPrefix) (st : State) (T : Coverage) : Dug fam p st st T T :=
  { rootBlock := rfl
    universeNet := rfl
    items := rfl
    mem := id
    fresh := fun h hn => absurd h hn
    way := fun h hn => absurd h hn
    bits := fun _ => rfl
    spare := id
    stamp := fun _ => rfl
    stamp_new := fun h hn => absurd h hn
    natural_new := fun h hn => absurd h hn
    blockCheck := rfl
    net := Renewed.refl _ _ }

lemma trans (h : Dug fam p st st' T T') (h' : Dug fam p st' st'' T' T'')
    (hlive : ∀ {c a}, T' c a → ¬ st'.tree.Spare c) : Dug fam p st st'' T T'' := by
  refine
    { rootBlock := h'.rootBlock.trans h.rootBlock
      universeNet := h'.universeNet.trans h.universeNet
      items := h'.items.trans h.items
      mem := fun hc => h'.mem (h.mem hc)
      fresh := ?_
      way := ?_
      bits := fun hc => (h'.bits (h.mem hc)).trans (h.bits hc)
      spare := fun ho => h.spare (h'.spare ho)
      stamp := fun ho => (h'.stamp fun ho' => ho (h.spare ho')).trans (h.stamp ho)
      stamp_new := ?_
      natural_new := ?_
      blockCheck := h'.blockCheck.trans h.blockCheck
      net :=
        { netof := h'.net.netof.trans h.net.netof
          itemBlock := h'.net.itemBlock.trans h.net.itemBlock
          info := h'.net.info.trans h.net.info
          netRanges := h'.net.netRanges.trans h.net.netRanges
          itemCheck := h'.net.itemCheck.trans h.net.itemCheck
          count := ?_ } }
  · intro c a hc hn
    by_cases hmid : T' c a
    · exact h.fresh hmid hn
    · exact h.spare (h'.fresh hc hmid)
  · intro c a hc hn
    by_cases hmid : T' c a
    · exact h'.mem (h.way hmid hn)
    · exact h'.way hc hmid
  · intro c a hc hn hfull
    by_cases hmid : T' c a
    · rw [h'.bits hmid] at hfull
      rw [h'.stamp (hlive hmid)]
      exact h.stamp_new hmid hn hfull
    · exact h'.stamp_new hc hmid hfull
  · intro c a hc hn
    by_cases hmid : T' c a
    · rw [h'.bits hmid]
      exact h.natural_new hmid hn
    · exact h'.natural_new hc hmid
  · intro type c
    rcases h'.net.count type c with ⟨hcount, hany⟩ | ⟨hspare, hzero⟩
    · rw [hcount, hany]
      exact h.net.count type c
    · exact .inr ⟨h.spare hspare, hzero⟩

/-- Blocks without content do not change a longest-prefix match. -/
theorem isParent_iff (h : Dug fam p st st' T T') (hst : Storage st.tree T) (e : Entry)
    (net : Option DbObject) : IsParent st'.tree T' e net ↔ IsParent st.tree T e net := by
  refine IsParent.congr ?_ (fun c hc => h.bits hc.1) ?_
  · intro c
    constructor
    · rintro ⟨hc, habove, hne⟩
      rw [h.items] at hne
      have hold : T c e.pfx.stream := by
        by_contra hn
        exact hne (hst.blank_items _ (h.fresh hc hn))
      rw [h.bits hold] at habove
      exact ⟨hold, habove, hne⟩
    · rintro ⟨hc, habove, hne⟩
      rw [← h.bits hc] at habove
      refine ⟨h.mem hc, habove, ?_⟩
      rw [h.items]
      exact hne
  · intro c _
    rw [inetFirstItem, h.items, inetFirstItem]

end Dug

/-- The net data that `Inet_New_Block` writes: the counts of a new block start at zero. -/
theorem inetNewBlock_net (fam : Family) (st : State) (p : InetPrefix) (blk : InetBlock) :
    (inetNewBlock fam st p blk).1.blockCheck = st.blockCheck ∧
      (inetNewBlock fam st p blk).1.net =
        if (inetNewBlock fam st p blk).2.bits = fam.bits then st.net
        else
          { st.net with
            netCount := fun type =>
              update (st.net.netCount type) (inetNewBlock fam st p blk).2.block 0
            netAny := fun type =>
              update (st.net.netAny type) (inetNewBlock fam st p blk).2.block none } := by
  refine ⟨rfl, ?_⟩
  unfold inetNewBlock
  simp

section Dig

variable {dir : Directory}

/-- One step of the loop, as long as the run it fills is aligned. -/
theorem inetNewBlock_dug (h : Filing fam st.tree r T dir) (hmem : T blk.block p.stream)
    (hbits : blk.bits = st.tree.bits blk.block) (hlt : blk.bits < p.bits) (hp : p.bits ≤ fam.bits)
    (hblocked : ∀ s, (st.tree.layout r).child blk.block p.stream = some s →
      p.bits < st.tree.bits s) (halign : p.AlignedAt (newBits p blk.bits)) :
    ∃ T', Filing fam (inetNewBlock fam st p blk).1.tree r T' dir ∧
      Dug fam p st (inetNewBlock fam st p blk).1 T T' ∧
      T' (inetNewBlock fam st p blk).2.block p.stream ∧
      (inetNewBlock fam st p blk).2.bits = newBits p blk.bits ∧
      (inetNewBlock fam st p blk).1.tree.bits (inetNewBlock fam st p blk).2.block =
        newBits p blk.bits ∧
      (newBits p blk.bits < p.bits → ∀ s, ((inetNewBlock fam st p blk).1.tree.layout r).child
        (inetNewBlock fam st p blk).2.block p.stream = some s →
          p.bits < (inetNewBlock fam st p blk).1.tree.bits s) := by
  rcases inetNewBlock_grafted fam h.storage p hmem hbits with ⟨g, hnew⟩
  rcases inetNewBlock_net fam st p blk with ⟨hcheck, hnet⟩
  rw [hbits] at hlt halign ⊢
  generalize (inetNewBlock fam st p blk).2 = blk' at *
  have hfresh : ∀ {c a}, graftCover T p (newBits p (st.tree.bits blk.block)) blk'.block c a →
      ¬ T c a → c = blk'.block := fun hc hn => (hc.resolve_left hn).1
  have hkeep : ∀ {c}, ¬ st.tree.Spare c → c ≠ blk'.block := by
    rintro c hc rfl
    exact hc g.spare
  refine ⟨_, g.filing h hmem hlt hp hblocked halign, ?_, .inr ⟨rfl, Agree.refl _ _⟩, hnew,
    g.bits_new, ?_⟩
  · refine
      { rootBlock := g.rootBlock
        universeNet := g.universeNet
        items := g.items
        mem := .inl
        fresh := fun hc hn => hfresh hc hn ▸ g.spare
        way := fun hc hn => hfresh hc hn ▸ .inr ⟨rfl, Agree.refl _ _⟩
        bits := fun hc => g.bits_of_mem h.storage hc
        spare := fun ho => ((g.spare_iff _).1 ho).1
        stamp := fun ho => g.stamp _ (hkeep ho)
        stamp_new := ?_
        natural_new := ?_
        blockCheck := hcheck
        net := ?_ }
    · intro c a hc hn hfull
      rw [hfresh hc hn] at hfull ⊢
      exact g.stamp_new (g.bits_new.symm.trans hfull)
    · intro c a hc hn
      rw [hfresh hc hn, g.bits_new]
      by_cases hend : newBits p (st.tree.bits blk.block) = p.bits
      · exact .inr hend
      · rw [newBits_eq_boundary hend]
        exact .inl (boundary_mod _)
    · rw [hnet]
      split
      · exact Renewed.refl _ _
      · refine ⟨rfl, rfl, rfl, rfl, rfl, fun type c => ?_⟩
        by_cases hc : c = blk'.block
        · subst hc
          exact .inr ⟨g.spare, update_self _ _ _, update_self _ _ _⟩
        · exact .inl ⟨update_of_ne hc _ _, update_of_ne hc _ _⟩
  · intro hend s hs
    -- The block ends at a boundary, where nothing was taken over.
    have hbound := newBits_eq_boundary (ne_of_lt hend)
    rw [g.child_new h.shape hmem hlt hp hblocked halign (Agree.refl _ _),
      Grafted.child_eq_none h.shape hmem hblocked hbound] at hs
    cases hs

/-- The loop of `Inet_Insert` ends at a block of the full length of the prefix. -/
theorem inetInsertLoop_dug (fuel : ℕ) (h : Filing fam st.tree r T dir)
    (hfuel : p.bits - blk.bits ≤ fuel) (hmem : T blk.block p.stream)
    (hbits : blk.bits = st.tree.bits blk.block) (hle : blk.bits ≤ p.bits) (hp : p.bits ≤ fam.bits)
    (hblocked : blk.bits < p.bits → ∀ s, (st.tree.layout r).child blk.block p.stream = some s →
      p.bits < st.tree.bits s) (halign : blk.bits < p.bits → p.AlignedAt p.bits) :
    ∃ T', Filing fam (inetInsertLoop fam p fuel st blk).1.tree r T' dir ∧
      Dug fam p st (inetInsertLoop fam p fuel st blk).1 T T' ∧
      T' (inetInsertLoop fam p fuel st blk).2.block p.stream ∧
      (inetInsertLoop fam p fuel st blk).2.bits = p.bits ∧
      (inetInsertLoop fam p fuel st blk).1.tree.bits
        (inetInsertLoop fam p fuel st blk).2.block = p.bits := by
  induction fuel generalizing st T blk with
  | zero =>
    have hend : blk.bits = p.bits := by omega
    exact ⟨T, h, Dug.refl fam p st T, hmem, hend, hbits ▸ hend⟩
  | succ fuel ih =>
    rw [inetInsertLoop]
    by_cases hlt : blk.bits < p.bits
    · rw [if_pos hlt]
      have hstep : p.AlignedAt (newBits p blk.bits) := by
        by_cases hend : newBits p blk.bits = p.bits
        · rw [hend]
          exact halign hlt
        · rw [newBits_eq_boundary hend]
          exact InetPrefix.AlignedAt.of_boundary p _
      rcases inetNewBlock_dug h hmem hbits hlt hp (hblocked hlt) hstep with
        ⟨T₁, hfile, hdug, hmem₁, hnew, hbits₁, hblocked₁⟩
      have hgrow := lt_newBits hlt
      have hfit := newBits_le p blk.bits
      rw [← hnew] at hgrow hfit hbits₁ hblocked₁
      rcases ih hfile (by omega) hmem₁ hbits₁.symm hfit hblocked₁ (fun _ => halign hlt) with
        ⟨T₂, hfile₂, hdug₂, hrest⟩
      refine ⟨T₂, hfile₂, hdug.trans hdug₂ ?_, hrest⟩
      intro c a hc hspare
      exact hfile.storage.outside hspare hc
    · rw [if_neg hlt]
      have hend : blk.bits = p.bits := by omega
      exact ⟨T, h, Dug.refl fam p st T, hmem, hend, hbits ▸ hend⟩

end Dig

end Inet
end Unameit
