import Unameit.Inet.NewBlock

/-!
# Inet.Reparent — moving the contents of a block to another net

`Inet_Reparent` walks over a block and its sub-blocks up to the next subnets.  It does two things
that do not depend on each other: it gives every item it meets another parent net
(`Tree.contents`, `moveAll`), and it recycles the sub-blocks that turn out to be unused
(`Tree.Freed`, `Swept`).  `inetReparent_spec` puts the two together.
-/

namespace Unameit
namespace Inet

open HoleSeq (nth put putRun)
open BitStream (Agree window)
open Function (update update_self update_of_ne)
open List
open HoleSeq

/-! ## Sub-blocks -/

def Tree.Sub (t : Tree) (b o : DbObject) : Prop :=
  ∃ i, nth (t.subs b) i = some o

abbrev Tree.Under (t : Tree) : DbObject → DbObject → Prop :=
  Relation.ReflTransGen t.Sub

def Tree.Dead (t : Tree) (b : DbObject) : Prop :=
  ∀ c, t.Under b c → ∀ type, t.items type c = []

/-- The blocks below `b` that a visit to `b` recycles: unused blocks that are not hidden by a
block with a net. -/
inductive Tree.Freed (t : Tree) : DbObject → DbObject → Prop
  | here {b o : DbObject} : t.Sub b o → t.Dead o → Tree.Freed t b o
  | down {b o c : DbObject} : t.Sub b o → t.items .net o = [] → Tree.Freed t o c → Tree.Freed t b c

def Tree.children (t : Tree) (b : DbObject) : List DbObject :=
  HoleSeq.values (t.subs b)

def Tree.contents (fam : Family) (t : Tree) : ℕ → DbObject → Bool → List (InetObjType × DbObject)
  | 0, _, _ => []
  | fuel + 1, b, skipNets =>
    if ¬ skipNets ∧ t.bits b = fam.bits then (t.items .node b).map (Prod.mk .node)
    else if ¬ skipNets ∧ t.items .net b ≠ [] then (t.items .net b).map (Prod.mk .net)
    else
      (t.items .range b).map (Prod.mk .range) ++
        (t.children b).flatMap fun s => Tree.contents fam t fuel s false

def moveAll (nd : NetData) (net : Option DbObject) (moves : List (InetObjType × DbObject)) :
    NetData :=
  moves.foldl (fun nd m => inetSetNetof nd m.2 m.1 net) nd

lemma moveAll_append (nd : NetData) (net : Option DbObject) (l l' : List (InetObjType × DbObject)) :
    moveAll nd net (l ++ l') = moveAll (moveAll nd net l) net l' :=
  foldl_append

lemma inetReparentItems_eq (nd : NetData) (items : List DbObject) (type : InetObjType)
    (net : Option DbObject) :
    inetReparentItems nd items type net = moveAll nd net (items.map (Prod.mk type)) := by
  rw [moveAll, foldl_map, inetReparentItems]

variable {t : Tree} {b o c s r : DbObject} {a : BitStream} {i : ℕ} {dir : Directory} {fam : Family}
  {T : Coverage}

lemma Tree.Dead.sub (h : t.Dead b) (ho : t.Sub b o) : t.Dead o :=
  fun c hc type => h c (.head ho hc) type

lemma Tree.dead_iff : t.Dead b ↔ (∀ type, t.items type b = []) ∧ ∀ o, t.Sub b o → t.Dead o := by
  constructor
  · intro h
    exact ⟨h b .refl, fun o ho => h.sub ho⟩
  · rintro ⟨hitems, hsub⟩ c hc
    rcases hc.cases_head with rfl | ⟨o, ho, hoc⟩
    · exact hitems
    · exact hsub o ho c hoc

namespace Tree.Freed

lemma dead (h : t.Freed b c) : t.Dead c := by
  induction h with
  | here _ hdead => exact hdead
  | down _ _ _ ih => exact ih

lemma under (h : t.Freed b c) : ∃ o, t.Sub b o ∧ t.Under o c := by
  induction h with
  | here ho _ => exact ⟨_, ho, .refl⟩
  | down ho _ _ ih =>
    rcases ih with ⟨o', ho', hc⟩
    exact ⟨_, ho, .head ho' hc⟩

lemma sub (h : t.Freed b c) (ho : t.Sub c o) : t.Freed b o := by
  induction h with
  | here hc hdead =>
    exact .down hc (hdead _ .refl _) (.here ho (hdead.sub ho))
  | down hc hnets _ ih => exact .down hc hnets (ih ho)

lemma cases_iff : t.Freed b c ↔
    ∃ o, t.Sub b o ∧ ((c = o ∧ t.Dead o) ∨ (t.items .net o = [] ∧ t.Freed o c)) := by
  constructor
  · intro h
    cases h with
    | here ho hdead => exact ⟨_, ho, .inl ⟨rfl, hdead⟩⟩
    | down ho hnets hc => exact ⟨_, ho, .inr ⟨hnets, hc⟩⟩
  · rintro ⟨o, ho, ⟨rfl, hdead⟩ | ⟨hnets, hc⟩⟩
    · exact .here ho hdead
    · exact .down ho hnets hc

end Tree.Freed

/-! ## Sub-blocks and covers -/

section Shape

section

variable (h : Shape fam t r T) (hb : T b a)

include h hb

lemma Shape.mem_of_sub (ho : t.Sub b o) :
    ∃ a', T b a' ∧ (t.layout r).child b a' = some o ∧ T o a' ∧ t.bits b < t.bits o := by
  rcases ho with ⟨i, hi⟩
  rcases h.exists_child hb hi with ⟨a', hb', _, hchild⟩
  rcases h.cover.child_mem hb' hchild with ⟨ho, _, hlt⟩
  exact ⟨a', hb', hchild, ho, hlt⟩

/-- The blocks under a block are the longer ones inside it. -/
theorem Shape.mem_of_under (hc : t.Under b c) :
    (∃ a', T c a') ∧ t.bits b ≤ t.bits c ∧ ∀ a', T c a' → T b a' := by
  induction hc with
  | refl => exact ⟨⟨a, hb⟩, le_refl _, fun _ h' => h'⟩
  | tail _ ho ih =>
    rcases ih with ⟨⟨a', hc⟩, hle, hsub⟩
    rcases h.mem_of_sub hc ho with ⟨a'', hc', _, ho', hlt⟩
    refine ⟨⟨a'', ho'⟩, le_trans hle (le_of_lt hlt), ?_⟩
    intro x hx
    exact hsub x (h.cover.mem_of_le hc' ho' (le_of_lt hlt) hx)

lemma Shape.under_of_mem (hc : T c a) (hle : t.bits b ≤ t.bits c) : t.Under b c := by
  induction hn : t.bits c using Nat.strong_induction_on generalizing c with
  | h n ih =>
    rcases Nat.lt_or_eq_of_le hle with hlt | heq
    · have hroot := h.cover.ne_root_of_pos (Nat.lt_of_le_of_lt (Nat.zero_le _) hlt)
      rcases h.cover.parent_of_mem hc hroot with ⟨d, hparent, hd, hchild⟩
      have hdlt := (h.cover.child_mem hd hchild).2.2
      have hbd := h.cover.len_le_parent hc hb hparent hroot hlt
      exact (ih (t.bits d) (hn ▸ hdlt) hd hbd rfl).tail ⟨_, hchild⟩
    · rw [h.cover.unique hb hc heq]

/-- The sub-blocks of a block have nothing in common. -/
theorem Shape.sub_unique {o' : DbObject} (ho : t.Sub b o) (ho' : t.Sub b o') (hc : t.Under o c)
    (hc' : t.Under o' c) : o = o' := by
  rcases h.mem_of_sub hb ho with ⟨a₁, hb₁, hchild₁, hmem₁, hlt₁⟩
  rcases h.mem_of_sub hb ho' with ⟨a₂, hb₂, hchild₂, hmem₂, hlt₂⟩
  rcases h.mem_of_under hmem₁ hc with ⟨⟨x, hx⟩, _, hsub₁⟩
  rcases h.mem_of_under hmem₂ hc' with ⟨_, _, hsub₂⟩
  have hat : ∀ {s y z}, T s y → T b z → (t.layout r).child b z = some s →
      t.bits b < t.bits s → (t.layout r).child b y = some s := by
    intro s y z hs hz hchild hlt
    have hroot := h.cover.ne_root_of_pos (Nat.lt_of_le_of_lt (Nat.zero_le _) hlt)
    rcases h.cover.parent_of_mem hs hroot with ⟨b', hb', _, hchild'⟩
    have hbb : b' = b := Option.some.inj (hb'.symm.trans (h.cover.child_mem hz hchild).2.1)
    exact hbb ▸ hchild'
  have h₁ := hat (hsub₁ x hx) hb₁ hchild₁ hlt₁
  have h₂ := hat (hsub₂ x hx) hb₂ hchild₂ hlt₂
  exact Option.some.inj (h₁.symm.trans h₂)

/-- The indices of a sub-block, counted from the first. -/
theorem Shape.run_iff (ho : nth (t.subs b) i = some o)
    (hfirst : ∀ j, j < i → nth (t.subs b) j ≠ some o) (j : ℕ) :
    nth (t.subs b) j = some o ↔ i ≤ j ∧ j < i + 2 ^ (boundary (t.bits b) - t.bits o) := by
  have hrun := h.blockTree.run ((h.covers_iff b a).2 hb) ho
  have hpos : 0 < 2 ^ (boundary (t.bits b) - t.bits o) := Nat.pow_pos (by norm_num)
  have hmod : i % 2 ^ (boundary (t.bits b) - t.bits o) = 0 := by
    by_contra hne
    -- Otherwise the index before `i` belongs to the run as well.
    have hi : 0 < i := Nat.pos_of_ne_zero (by rintro rfl; simp at hne)
    refine hfirst (i - 1) (by omega) ((hrun (i - 1)).2 ?_)
    rw [Nat.div_eq_iff hpos]
    have hdiv := Nat.div_add_mod i (2 ^ (boundary (t.bits b) - t.bits o))
    rw [mul_comm] at hdiv
    omega
  rw [hrun j, mem_run_iff_div_eq hpos hmod]

end

end Shape

/-! ## Recycling sub-blocks -/

def blockClass (fam : Family) (t : Tree) (o : DbObject) : BlockClass :=
  if t.bits o < fam.bits then .block else .slot

/-- What is left of a tree with cover `T` when the blocks in `F` are recycled. -/
structure Swept (fam : Family) (t t' : Tree) (T : Coverage)
    (F : DbObject → Prop) : Prop where
  bits : t'.bits = t.bits
  super : t'.super = t.super
  items : t'.items = t.items
  stamp : t'.stamp = t.stamp
  rootBlock : t'.rootBlock = t.rootBlock
  universeNet : t'.universeNet = t.universeNet
  nextObject : t'.nextObject = t.nextObject
  sub_iff : ∀ {c a}, T c a → ∀ i s,
    nth (t'.subs c) i = some s ↔ nth (t.subs c) i = some s ∧ ¬ F s
  subs : ∀ {c}, (∀ a, ¬ T c a) → t'.subs c = t.subs c
  free : ∀ cls o, o ∈ t'.free cls ↔ o ∈ t.free cls ∨ (F o ∧ cls = blockClass fam t o)
  nodup : ∀ cls, (t'.free cls).Nodup

variable {t' : Tree} {F : DbObject → Prop}

section Sweep

variable {G : DbObject → Prop}

lemma Swept.refl (hst : Storage t T) : Swept fam t t T (fun _ => False) :=
  { bits := rfl
    super := rfl
    items := rfl
    stamp := rfl
    rootBlock := rfl
    universeNet := rfl
    nextObject := rfl
    sub_iff := by simp
    subs := fun _ => rfl
    free := by simp
    nodup := hst.nodup }

lemma Swept.congr (h : Swept fam t t' T F) (hFG : ∀ c, F c ↔ G c) : Swept fam t t' T G := by
  obtain rfl : F = G := funext fun c => propext (hFG c)
  exact h

/-- Trimming the sub-blocks of a block when none of them is left. -/
theorem Swept.trim (h : Swept fam t t' T F) (hb : T b a) (hF : ∀ s, t.Sub b s → F s) :
    Swept fam t { t' with subs := update t'.subs b [] } T F := by
  refine
    { bits := h.bits
      super := h.super
      items := h.items
      stamp := h.stamp
      rootBlock := h.rootBlock
      universeNet := h.universeNet
      nextObject := h.nextObject
      sub_iff := ?_
      subs := ?_
      free := h.free
      nodup := h.nodup }
  · intro c a' hc i s
    by_cases hcb : c = b
    · subst hcb
      simp only [update_self, nth_nil]
      constructor
      · intro hnone
        cases hnone
      · rintro ⟨hs, hn⟩
        exact absurd (hF s ⟨i, hs⟩) hn
    · simpa [update_of_ne hcb] using h.sub_iff hc i s
  · intro c hc
    have hcb : c ≠ b := by
      rintro rfl
      exact hc a hb
    simpa [update_of_ne hcb] using h.subs hc

/-- Recycling one more sub-block `o` of `b` clears the run of its indices. -/
theorem Swept.clear (h : Swept fam t t' T F) (hs : Shape fam t r T) (hst : Storage t T) {n : ℕ}
    (hb : T b a) (ho : t.Sub b o) (hF : ¬ F o)
    (hrun : ∀ j, nth (t.subs b) j = some o ↔ i ≤ j ∧ j < i + n) :
    Swept fam t
      { udbAppendFreeList t' (blockClass fam t o) o with
        subs := update t'.subs b (putRun (t'.subs b) i (fun _ => none) n) }
      T (fun c => F c ∨ c = o) := by
  rcases hs.mem_of_sub hb ho with ⟨a', hb', hchild, hmem, _⟩
  have hlive : ∀ cls, o ∉ t.free cls := fun cls hfree => hst.outside (.inl ⟨cls, hfree⟩) hmem
  refine
    { bits := h.bits
      super := h.super
      items := h.items
      stamp := h.stamp
      rootBlock := h.rootBlock
      universeNet := h.universeNet
      nextObject := h.nextObject
      sub_iff := ?_
      subs := ?_
      free := ?_
      nodup := ?_ }
  · intro c x hc j s
    by_cases hcb : c = b
    · subst hcb
      simp only [update_self]
      rw [nth_putRun]
      by_cases hj : i ≤ j ∧ j < i + n
      · rw [if_pos hj, (hrun j).2 hj]
        constructor
        · intro hnone
          cases hnone
        · rintro ⟨hs', hn⟩
          exact absurd (.inr (Option.some.inj hs').symm) hn
      · rw [if_neg hj, h.sub_iff hc j s]
        have hne : nth (t.subs c) j = some s → s ≠ o := by
          rintro hs' rfl
          exact hj ((hrun j).1 hs')
        constructor
        · rintro ⟨hs', hn⟩
          exact ⟨hs', fun hor => hor.elim hn (hne hs')⟩
        · rintro ⟨hs', hn⟩
          exact ⟨hs', fun hFs => hn (.inl hFs)⟩
    · simp only [update_of_ne hcb]
      rw [h.sub_iff hc j s]
      have hne : nth (t.subs c) j = some s → s ≠ o := by
        rintro hs' rfl
        have hsuper := (hs.super_of_entry hc hs').1
        exact hcb (Option.some.inj (hsuper.symm.trans (hs.cover.child_mem hb' hchild).2.1))
      constructor
      · rintro ⟨hs', hn⟩
        exact ⟨hs', fun hor => hor.elim hn (hne hs')⟩
      · rintro ⟨hs', hn⟩
        exact ⟨hs', fun hFs => hn (.inl hFs)⟩
  · intro c hc
    have hcb : c ≠ b := by
      rintro rfl
      exact hc a hb
    simpa [update_of_ne hcb] using h.subs hc
  · intro cls o'
    by_cases hcls : cls = blockClass fam t o
    · subst hcls
      have hhead : o' ∈ (udbAppendFreeList t' (blockClass fam t o) o).free (blockClass fam t o) ↔
          o' = o ∨ o' ∈ t'.free (blockClass fam t o) := by
        simp [udbAppendFreeList]
      rw [hhead, h.free]
      constructor
      · rintro (rfl | hfree | ⟨hFo, heq⟩)
        · exact .inr ⟨.inr rfl, rfl⟩
        · exact .inl hfree
        · exact .inr ⟨.inl hFo, heq⟩
      · rintro (hfree | ⟨hFo | rfl, heq⟩)
        · exact .inr (.inl hfree)
        · exact .inr (.inr ⟨hFo, heq⟩)
        · exact .inl rfl
    · have hkeep : (udbAppendFreeList t' (blockClass fam t o) o).free cls = t'.free cls := by
        simp [udbAppendFreeList, update_of_ne hcls]
      rw [hkeep, h.free]
      constructor
      · rintro (hfree | ⟨hFo, heq⟩)
        · exact .inl hfree
        · exact .inr ⟨.inl hFo, heq⟩
      · rintro (hfree | ⟨hFo | rfl, heq⟩)
        · exact .inl hfree
        · exact .inr ⟨hFo, heq⟩
        · exact absurd heq hcls
  · intro cls
    by_cases hcls : cls = blockClass fam t o
    · subst hcls
      have hcons : (udbAppendFreeList t' (blockClass fam t o) o).free (blockClass fam t o) =
          o :: t'.free (blockClass fam t o) := by
        simp [udbAppendFreeList]
      rw [hcons, nodup_cons]
      refine ⟨?_, h.nodup _⟩
      rw [h.free]
      rintro (hfree | ⟨hFo, _⟩)
      · exact hlive _ hfree
      · exact hF hFo
    · have hkeep : (udbAppendFreeList t' (blockClass fam t o) o).free cls = t'.free cls := by
        simp [udbAppendFreeList, update_of_ne hcls]
      rw [hkeep]
      exact h.nodup cls

/-! ## The walk -/

/-- The result of a walk that started with the blocks in `G` recycled and with net data `nd`: it
says whether anything is still in use, recycles `F` as well and moves the items in `moves`. -/
structure Walked (fam : Family) (t : Tree) (T : Coverage)
    (net : Option DbObject) (nd : NetData) (G F : DbObject → Prop) (unused : Prop)
    (moves : List (InetObjType × DbObject)) (result : Bool × Tree × NetData) : Prop where
  used : result.1 = false ↔ unused
  tree : Swept fam t result.2.1 T (fun c => G c ∨ F c)
  net : result.2.2 = moveAll nd net moves

variable {net : Option DbObject} {σ : Tree}

/-- The loop over the sub-blocks of `b`, from the first index of a sub-block on, for any `visit`
that recycles blocks strictly below the one it is called for. -/
theorem inetReparentLoop_spec (hs : Shape fam t r T) (hst : Storage t T)
    (visit : Tree → NetData → InetBlock → Bool × Tree × NetData) (V : DbObject → DbObject → Prop)
    (moves : DbObject → List (InetObjType × DbObject)) (hb : T b a)
    (hV : ∀ {s c}, V s c → ∃ o, t.Sub s o ∧ t.Under o c)
    (hvisit : ∀ {s σ G} (nd), t.Sub b s → Swept fam t σ T G → (∀ c, t.Under s c → ¬ G c) →
      Walked fam t T net nd G (V s) (t.Dead s) (moves s) (visit σ nd ⟨t.bits s, s⟩)) (fuel i : ℕ)
    (inUse : Bool) (nd : NetData) (hσ : Swept fam t σ T G)
    (hfuel : ∀ j s, nth (t.subs b) j = some s → j < i + fuel)
    (hfirst : ∀ s ∈ HoleSeq.values ((t.subs b).drop i), ∀ j, j < i → nth (t.subs b) j ≠ some s)
    (hG : ∀ s ∈ HoleSeq.values ((t.subs b).drop i), ∀ c, t.Under s c → ¬ G c) :
    Walked fam t T net nd G
      (fun c => ∃ s ∈ HoleSeq.values ((t.subs b).drop i), (c = s ∧ t.Dead s) ∨ V s c)
      (inUse = false ∧ ∀ s ∈ HoleSeq.values ((t.subs b).drop i), t.Dead s)
      ((HoleSeq.values ((t.subs b).drop i)).flatMap moves)
      (inetReparentLoop fam visit ⟨t.bits b, b⟩ fuel i inUse σ nd) := by
  -- When no sub-block is left there is nothing to do.
  have hend : ∀ {i inUse σ nd G}, Swept fam t σ T G →
      values ((t.subs b).drop i) = [] →
      Walked fam t T net nd G
        (fun c => ∃ s ∈ values ((t.subs b).drop i), (c = s ∧ t.Dead s) ∨ V s c)
        (inUse = false ∧ ∀ s ∈ values ((t.subs b).drop i), t.Dead s)
        ((values ((t.subs b).drop i)).flatMap moves) (inUse, σ, nd) := by
    intro i inUse σ nd G hσ hnil
    rw [hnil]
    exact ⟨by simp, hσ.congr (by simp), rfl⟩
  induction fuel generalizing i inUse σ nd G with
  | zero =>
    refine hend hσ (eq_nil_iff_forall_not_mem.2 fun s hmem => ?_)
    rcases mem_values_drop.1 hmem with ⟨j, hij, hj⟩
    exact absurd (hfuel j s hj) (not_lt.2 hij)
  | succ fuel ih =>
    rw [inetReparentLoop]
    by_cases hlen : i < (σ.subs b).length
    · rw [if_pos hlen]
      cases ho : nth (σ.subs b) i with
      | none =>
        have hnone : nth (t.subs b) i = none := by
          cases hs' : nth (t.subs b) i with
          | none => rfl
          | some s =>
            have hmem := mem_values_drop.2 ⟨i, le_refl i, hs'⟩
            have hkept := (hσ.sub_iff hb i s).2 ⟨hs', hG s hmem s .refl⟩
            rw [ho] at hkept
            cases hkept
        have hstep := values_drop_none hnone
        rw [hstep] at hfirst hG ⊢
        have hfuel' : ∀ j s, nth (t.subs b) j = some s → j < i + 1 + fuel := by
          intro j s hj
          have := hfuel j s hj
          omega
        refine ih (i + 1) inUse nd hσ hfuel' ?_ hG
        intro s hmem j hj
        by_cases hji : j = i
        · rw [hji, hnone]
          simp
        · exact hfirst s hmem j (by omega)
      | some o =>
        have hto := ((hσ.sub_iff hb i o).1 ho).1
        have hsub : t.Sub b o := ⟨i, hto⟩
        have hmem : o ∈ values ((t.subs b).drop i) :=
          mem_values_drop.2 ⟨i, le_refl i, hto⟩
        have hrun := hs.run_iff hb hto (hfirst o hmem)
        have hcount : 1 <<< (t.bits b + subBits (t.bits b) - σ.bits o) =
            2 ^ (boundary (t.bits b) - t.bits o) := by
          rw [hσ.bits, Nat.shiftLeft_eq, one_mul, boundary]
        have hpos : 0 < 2 ^ (boundary (t.bits b) - t.bits o) := Nat.pow_pos (by norm_num)
        simp only [hcount]
        generalize 2 ^ (boundary (t.bits b) - t.bits o) = n at hrun hpos
        have hvalues := values_drop_run hpos (fun j hij hj => (hrun j).2 ⟨hij, hj⟩)
          (fun j hj hval => absurd ((hrun j).1 hval).2 (not_lt.2 hj))
        -- What holds of the remaining sub-blocks after the visit to `o`.
        have hfirst' : ∀ s ∈ values ((t.subs b).drop (i + n)), ∀ j, j < i + n →
            nth (t.subs b) j ≠ some s := by
          intro s hmem' j hj hval
          rcases lt_or_ge j i with hji | hij
          · exact hfirst s (hvalues ▸ mem_cons_of_mem o hmem') j hji hval
          · rcases mem_values_drop.1 hmem' with ⟨k, hk, hval'⟩
            have hso : some s = some o := hval.symm.trans ((hrun j).2 ⟨hij, hj⟩)
            rw [hso] at hval'
            exact absurd ((hrun k).1 hval').2 (not_lt.2 hk)
        have hfuel' : ∀ j s, nth (t.subs b) j = some s → j < i + n + fuel := by
          intro j s hj
          have := hfuel j s hj
          omega
        have hapart : ∀ s ∈ values ((t.subs b).drop (i + n)), ∀ c, t.Under s c →
            ¬ t.Under o c := by
          intro s hmem' c hc hc'
          rcases mem_values_drop.1 hmem' with ⟨k, hk, hval⟩
          obtain rfl := hs.sub_unique hb hsub ⟨k, hval⟩ hc' hc
          exact absurd ((hrun k).1 hval).2 (not_lt.2 hk)
        have hVo : ∀ {c}, V o c → t.Under o c := by
          intro c hc
          rcases hV hc with ⟨o', ho', hc'⟩
          exact .head ho' hc'
        rw [hvalues] at hG ⊢
        have hwalk := hvisit nd hsub hσ (hG o mem_cons_self)
        have hbits : σ.bits o = t.bits o := by rw [hσ.bits]
        simp only [hbits]
        rcases hres : visit σ nd ⟨t.bits o, o⟩ with ⟨used, σ₁, nd₁⟩
        rw [hres] at hwalk
        cases used with
        | true =>
          have hlive : ¬ t.Dead o := fun hdead => Bool.noConfusion (hwalk.used.2 hdead)
          have hrest := ih (i + n) true nd₁ hwalk.tree hfuel' hfirst' (by
            rintro s hmem' c hc (hGc | hVc)
            · exact hG s (mem_cons_of_mem o hmem') c hc hGc
            · exact hapart s hmem' c hc (hVo hVc))
          refine ⟨?_, ?_, ?_⟩
          · rw [hrest.used]
            simp [hlive]
          · refine hrest.tree.congr fun c => ?_
            simp only [exists_mem_cons_iff, hlive, and_false, false_or, or_assoc]
          · rw [flatMap_cons, moveAll_append, ← hwalk.net]
            exact hrest.net
        | false =>
          have hdead : t.Dead o := hwalk.used.1 rfl
          have hcleared := hwalk.tree.clear hs hst hb hsub (by
            rintro (hGo | hVo')
            · exact hG o mem_cons_self o .refl hGo
            · rcases hV hVo' with ⟨o', ho', hc'⟩
              rcases hs.mem_of_sub hb hsub with ⟨x, _, _, hx, _⟩
              rcases hs.mem_of_sub hx ho' with ⟨y, _, _, hy, hlt⟩
              have := (hs.mem_of_under hy hc').2.1
              omega) hrun
          have hrest := ih (i + n) inUse nd₁ hcleared hfuel' hfirst' (by
            rintro s hmem' c hc ((hGc | hVc) | rfl)
            · exact hG s (mem_cons_of_mem o hmem') c hc hGc
            · exact hapart s hmem' c hc (hVo hVc)
            · exact hapart s hmem' c hc .refl)
          refine ⟨?_, ?_, ?_⟩
          · refine hrest.used.trans ?_
            simp [hdead]
          · refine hrest.tree.congr fun c => ?_
            simp only [exists_mem_cons_iff, hdead, and_true, or_assoc]
            rw [or_left_comm (a := V o c)]
          · rw [flatMap_cons, moveAll_append, ← hwalk.net]
            exact hrest.net
    · rw [if_neg hlen]
      refine hend hσ ?_
      rw [eq_nil_iff_forall_not_mem]
      intro s hmem
      rcases mem_values_drop.1 hmem with ⟨j, hij, hj⟩
      have hkept := (hσ.sub_iff hb j s).2 ⟨hj, hG s hmem s .refl⟩
      have := lt_length_of_nth_eq_some hkept
      omega

def Tree.FreedBy (t : Tree) (s c : DbObject) : Prop :=
  t.items .net s = [] ∧ t.Freed s c

lemma Tree.freed_iff_values : t.Freed b c ↔
    ∃ s ∈ HoleSeq.values ((t.subs b).drop 0), (c = s ∧ t.Dead s) ∨ t.FreedBy s c := by
  rw [Tree.Freed.cases_iff]
  simp only [drop_zero, mem_values]
  rfl

/-- The visit to a block whose nets, if any, do not stop the walk. -/
theorem inetReparent_open (hs : Shape fam t r T) (hst : Storage t T) (hb : T b a) (fuel : ℕ)
    (skipNets : Bool) (hopen : skipNets = true ∨ (t.bits b ≠ fam.bits ∧ t.items .net b = []))
    (hvisit : ∀ {s σ G} (nd), t.Sub b s → Swept fam t σ T G → (∀ c, t.Under s c → ¬ G c) →
      Walked fam t T net nd G (t.FreedBy s) (t.Dead s) (t.contents fam fuel s false)
        (inetReparent fam net fuel σ nd ⟨t.bits s, s⟩ false)) (nd : NetData)
    (hσ : Swept fam t σ T G) (hG : ∀ c, t.Under b c → ¬ G c) :
    Walked fam t T net nd G (t.Freed b) (t.items .range b = [] ∧ ∀ o, t.Sub b o → t.Dead o)
      (t.contents fam (fuel + 1) b skipNets)
      (inetReparent fam net (fuel + 1) σ nd ⟨t.bits b, b⟩ skipNets) := by
  have hnode : ¬ (¬ (skipNets = true) ∧ t.bits b = fam.bits) := fun hc =>
    hopen.elim hc.1 fun ho => ho.1 hc.2
  have hnet : ¬ (¬ (skipNets = true) ∧ t.items .net b ≠ []) := fun hc =>
    hopen.elim hc.1 fun ho => hc.2 ho.2
  have hentry : ∀ j s, nth (t.subs b) j = some s → nth (σ.subs b) j = some s := by
    intro j s hj
    exact (hσ.sub_iff hb j s).2 ⟨hj, hG s (.single ⟨j, hj⟩)⟩
  have hloop := inetReparentLoop_spec hs hst
    (fun t nd sub => inetReparent fam net fuel t nd sub false) t.FreedBy
    (fun s => t.contents fam fuel s false)
    hb (fun hV => hV.2.under) hvisit (σ.subs b).length 0 (!(t.items .range b).isEmpty)
    (inetReparentItems nd (t.items .range b) .range net) hσ
    (fun j s hj => by
      have := lt_length_of_nth_eq_some (hentry j s hj)
      omega)
    (fun _ _ j hj => absurd hj (Nat.not_lt_zero j))
    (fun s hmem c hc => by
      rcases mem_values_drop.1 hmem with ⟨j, _, hj⟩
      exact hG c (.head ⟨j, hj⟩ hc))
  have hused : ((!(t.items .range b).isEmpty) = false ∧
      ∀ s ∈ values ((t.subs b).drop 0), t.Dead s) ↔
      t.items .range b = [] ∧ ∀ o, t.Sub b o → t.Dead o := by
    simp only [Bool.not_eq_false', List.isEmpty_iff, List.drop_zero, mem_values]
    rfl
  rw [inetReparent, Tree.contents, hσ.items]
  simp only [hnode, hnet, if_false]
  rcases hres : inetReparentLoop fam
    (fun t nd sub => inetReparent fam net fuel t nd sub false) ⟨t.bits b, b⟩ (σ.subs b).length 0
    (!(t.items .range b).isEmpty) σ
    (inetReparentItems nd (t.items .range b) .range net) with ⟨used, σ', nd'⟩
  rw [hres] at hloop
  have htree : Swept fam t σ' T (fun c => G c ∨ t.Freed b c) :=
    hloop.tree.congr fun c => or_congr_right Tree.freed_iff_values.symm
  have hnd : nd' = moveAll nd net ((t.items .range b).map (Prod.mk .range) ++
      (t.children b).flatMap fun s => t.contents fam fuel s false) := by
    rw [moveAll_append, ← inetReparentItems_eq]
    exact hloop.net
  have hiff := hloop.used.trans hused
  cases used with
  | false =>
    have hall := (hiff.1 rfl).2
    refine ⟨hiff, htree.trim hb fun s hs' => .inr (.here hs' (hall s hs')), hnd⟩
  | true => exact ⟨hiff, htree, hnd⟩

lemma inetReparent_walked (h : Filing fam t r T dir) (fuel : ℕ) (hmem : T s a)
    (hfuel : fam.bits - t.bits s < fuel) (nd : NetData) (hσ : Swept fam t σ T G)
    (hG : ∀ c, t.Under s c → ¬ G c) :
    Walked fam t T net nd G (t.FreedBy s) (t.Dead s) (t.contents fam fuel s false)
      (inetReparent fam net fuel σ nd ⟨t.bits s, s⟩ false) := by
  induction fuel generalizing s a σ nd G with
  | zero => exact absurd hfuel (Nat.not_lt_zero _)
  | succ fuel ih =>
    have hbits := h.shape.bits_le hmem
    by_cases hslot : t.bits s = fam.bits
    · -- A slot has no sub-blocks.
      have hsubs : ∀ o, ¬ t.Sub s o := by
        rintro o ⟨i, hi⟩
        exact absurd (h.shape.fits hmem hi).1 (by omega)
      have hfreed : ∀ c, ¬ t.FreedBy s c := by
        rintro c ⟨_, hc⟩
        rcases hc.under with ⟨o, ho, _⟩
        exact hsubs o ho
      have hdead : t.Dead s ↔ t.items .node s = [] := by
        rw [Tree.dead_iff]
        constructor
        · intro hd
          exact hd.1 .node
        · intro hnil
          refine ⟨fun type => ?_, fun o ho => absurd ho (hsubs o)⟩
          cases type with
          | net => exact h.items_eq_nil_of_slot hmem hslot (by decide)
          | node => exact hnil
          | range => exact h.items_eq_nil_of_slot hmem hslot (by decide)
      rw [inetReparent, Tree.contents]
      simp only [hslot, hσ.items]
      refine ⟨by simp [hdead], hσ.congr fun c => ?_, inetReparentItems_eq _ _ _ _⟩
      exact ⟨.inl, fun hor => hor.resolve_right (hfreed c)⟩
    · by_cases hnets : t.items .net s = []
      · have hwalk := inetReparent_open h.shape h.storage hmem fuel false
          (.inr ⟨hslot, hnets⟩) (fun {o τ G'} nd' ho hτ hG' => by
            rcases h.shape.mem_of_sub hmem ho with ⟨x, _, _, hx, hlt⟩
            exact ih hx (by omega) nd' hτ hG') nd hσ hG
        refine ⟨hwalk.used.trans ?_, hwalk.tree.congr fun c => ?_, hwalk.net⟩
        · rw [Tree.dead_iff]
          constructor
          · rintro ⟨hranges, hsub⟩
            refine ⟨fun type => ?_, hsub⟩
            cases type with
            | net => exact hnets
            | node => exact h.nodes_eq_nil_of_block hmem (by omega)
            | range => exact hranges
          · rintro ⟨hitems, hsub⟩
            exact ⟨hitems .range, hsub⟩
        · exact or_congr_right ⟨fun hc => ⟨hnets, hc⟩, fun hc => hc.2⟩
      · have hdead : ¬ t.Dead s := fun hd => hnets (hd s .refl .net)
        have hfreed : ∀ c, ¬ t.FreedBy s c := fun c hc => hnets hc.1
        have hstop : ¬ (false = true) ∧ t.items .net s ≠ [] := ⟨Bool.false_ne_true, hnets⟩
        rw [inetReparent, Tree.contents]
        simp only [hslot, hσ.items, and_false, if_false, if_pos hstop]
        refine ⟨by simp [hdead], hσ.congr fun c => ?_, inetReparentItems_eq _ _ _ _⟩
        exact ⟨.inl, fun hor => hor.resolve_right (hfreed c)⟩

/-- What `Inet_Reparent` does when it is called for the block `b` of a net: every item up to the
next subnets moves, unused sub-blocks are recycled, and the result says whether a range or a used
sub-block is left. -/
theorem inetReparent_spec (h : Filing fam t r T dir) (net : Option DbObject) (hb : T b a)
    (nd : NetData) :
    Walked fam t T net nd (fun _ => False) (t.Freed b)
      (t.items .range b = [] ∧ ∀ o, t.Sub b o → t.Dead o)
      (t.contents fam (fam.bits + 1) b true)
      (inetReparent fam net (fam.bits + 1) t nd ⟨t.bits b, b⟩ true) := by
  refine inetReparent_open h.shape h.storage hb fam.bits true (.inl rfl) ?_ nd
    (Swept.refl h.storage) (fun _ _ hF => hF)
  intro s σ G nd' hsub hσ hG
  rcases h.shape.mem_of_sub hb hsub with ⟨x, _, _, hx, hlt⟩
  have hfit := h.shape.bits_le hx
  exact inetReparent_walked h fam.bits hx (by omega) nd' hσ hG

end Sweep

/-! ## A tree with fewer blocks -/

structure Shrunk (t t' : Tree) (T T' : Coverage) : Prop where
  bits : t'.bits = t.bits
  items : t'.items = t.items
  stamp : t'.stamp = t.stamp
  rootBlock : t'.rootBlock = t.rootBlock
  universeNet : t'.universeNet = t.universeNet
  mem : ∀ {c a}, T' c a → T c a
  spare : ∀ {o}, t.Spare o → t'.Spare o
  gone : ∀ {c a}, T c a → ¬ T' c a → t'.Spare c ∧ ∀ type, t.items type c = []

namespace Shrunk

variable {t'' : Tree} {T' T'' : Coverage}

lemma refl (t : Tree) (T : Coverage) : Shrunk t t T T :=
  { bits := rfl
    items := rfl
    stamp := rfl
    rootBlock := rfl
    universeNet := rfl
    mem := id
    spare := id
    gone := fun h hn => absurd h hn }

lemma trans (h : Shrunk t t' T T') (h' : Shrunk t' t'' T' T'') : Shrunk t t'' T T'' := by
  refine
    { bits := h'.bits.trans h.bits
      items := h'.items.trans h.items
      stamp := h'.stamp.trans h.stamp
      rootBlock := h'.rootBlock.trans h.rootBlock
      universeNet := h'.universeNet.trans h.universeNet
      mem := fun hc => h.mem (h'.mem hc)
      spare := fun ho => h'.spare (h.spare ho)
      gone := ?_ }
  intro c a hc hn
  by_cases hmid : T' c a
  · rcases h'.gone hmid hn with ⟨hsp, hitems⟩
    exact ⟨hsp, fun type => h.items ▸ hitems type⟩
  · rcases h.gone hc hmid with ⟨hsp, hitems⟩
    exact ⟨h'.spare hsp, hitems⟩

/-- Blocks without nets do not matter for a longest-prefix match. -/
theorem netBlock_iff (h : Shrunk t t' T T') (e : Entry) (c : DbObject) :
    NetBlock t' T' e c ↔ NetBlock t T e c := by
  unfold NetBlock
  rw [h.bits, h.items]
  constructor
  · rintro ⟨hc, habove, hne⟩
    exact ⟨h.mem hc, habove, hne⟩
  · rintro ⟨hc, habove, hne⟩
    refine ⟨?_, habove, hne⟩
    by_contra hn
    exact hne ((h.gone hc hn).2 .net)

lemma isParent_iff (h : Shrunk t t' T T') (e : Entry) (net : Option DbObject) :
    IsParent t' T' e net ↔ IsParent t T e net := by
  refine IsParent.congr (h.netBlock_iff e) ?_ ?_
  · intro c _
    rw [h.bits]
  · intro c _
    rw [inetFirstItem, h.items, inetFirstItem]

end Shrunk

/-- The content of a family does not change when blocks without content go away. -/
theorem Filing.shrunk {T' : Coverage} (h : Filing fam t r T dir) (hsh : Shrunk t t' T T')
    (hshape : Shape fam t' r T') (hst : Storage t' T') : Filing fam t' r T' dir := by
  refine
    { shape := hshape
      universe_first := ?_
      accepted := h.accepted
      filed := ?_
      filed_only := ?_
      listed_once := ?_
      storage := hst }
  · rw [hsh.universeNet, inetFirstItem, hsh.items]
    exact h.universe_first
  · intro o e he
    rcases h.filed he with ⟨b, hb, hbits, ho⟩
    refine ⟨b, ?_, ?_, ?_⟩
    · by_contra hn
      rw [(hsh.gone hb hn).2 e.type] at ho
      cases ho
    · rw [hsh.bits]
      exact hbits
    · rw [hsh.items]
      exact ho
  · intro a b type o hb ho
    rw [hsh.items] at ho
    rcases h.filed_only (hsh.mem hb) ho with ⟨p, hdir, hmem, hbits⟩
    refine ⟨p, hdir, ?_, ?_⟩
    · by_contra hn
      rw [(hsh.gone hmem hn).2 type] at ho
      cases ho
    · rw [hsh.bits]
      exact hbits
  · intro a b type hb
    rw [hsh.items]
    exact h.listed_once type (hsh.mem hb)

/-! ## Recycling keeps the content -/

def sweptCover (T : Coverage) (F : DbObject → Prop) :
    Coverage :=
  fun c a => T c a ∧ ¬ F c

namespace Swept

section

variable (hsw : Swept fam t t' T F)

include hsw

lemma spare_iff (o : DbObject) : t'.Spare o ↔ t.Spare o ∨ F o := by
  unfold Tree.Spare
  rw [hsw.nextObject]
  constructor
  · rintro (⟨cls, ho⟩ | hle)
    · rcases (hsw.free cls o).1 ho with hfree | ⟨hF, _⟩
      · exact .inl (.inl ⟨cls, hfree⟩)
      · exact .inr hF
    · exact .inl (.inr hle)
  · rintro ((⟨cls, hfree⟩ | hle) | hF)
    · exact .inl ⟨cls, (hsw.free cls o).2 (.inl hfree)⟩
    · exact .inr hle
    · exact .inl ⟨blockClass fam t o, (hsw.free _ o).2 (.inr ⟨hF, rfl⟩)⟩

lemma storage (hst : Storage t T) (hlive : ∀ {c}, F c → ∃ a, T c a) (hdead : ∀ {c}, F c → t.Dead c)
    (hclosed : ∀ {c s}, F c → t.Sub c s → F s) : Storage t' (sweptCover T F) := by
  have hspare : ∀ {o}, t.Spare o → ¬ F o := by
    intro o ho hF
    rcases hlive hF with ⟨a, ha⟩
    exact hst.outside ho ha
  refine
    { nodup := hsw.nodup
      disjoint := ?_
      created := ?_
      outside := ?_
      blank_subs := ?_
      blank_items := ?_ }
  · intro o hblock hslot
    rcases (hsw.free .block o).1 hblock with hfree | ⟨hF, heq⟩
    · rcases (hsw.free .slot o).1 hslot with hfree' | ⟨hF, _⟩
      · exact hst.disjoint hfree hfree'
      · exact hspare (.inl ⟨_, hfree⟩) hF
    · rcases (hsw.free .slot o).1 hslot with hfree' | ⟨_, heq'⟩
      · exact hspare (.inl ⟨_, hfree'⟩) hF
      · exact BlockClass.noConfusion (heq.trans heq'.symm)
  · intro cls o ho
    rw [hsw.nextObject]
    rcases (hsw.free cls o).1 ho with hfree | ⟨hF, _⟩
    · exact hst.created hfree
    · by_contra hge
      exact hspare (.inr (Nat.le_of_not_lt hge)) hF
  · rintro o a ho ⟨hmem, hF⟩
    rcases (hsw.spare_iff o).1 ho with hsp | hF'
    · exact hst.outside hsp hmem
    · exact hF hF'
  · intro o ho i
    rcases (hsw.spare_iff o).1 ho with hsp | hF
    · rw [hsw.subs fun a => hst.outside hsp]
      exact hst.blank_subs hsp i
    · rcases hlive hF with ⟨a, ha⟩
      cases hs : nth (t'.subs o) i with
      | none => rfl
      | some s =>
        rcases (hsw.sub_iff ha i s).1 hs with ⟨hs', hn⟩
        exact absurd (hclosed hF ⟨i, hs'⟩) hn
  · intro o type ho
    rw [hsw.items]
    rcases (hsw.spare_iff o).1 ho with hsp | hF
    · exact hst.blank_items type hsp
    · exact hdead hF o .refl type

lemma shape (hs : Shape fam t r T) (hroot : ¬ F r) (hclosed : ∀ {c s}, F c → t.Sub c s → F s) :
    Shape fam t' r (sweptCover T F) := by
  refine ⟨hsw.rootBlock.trans hs.root, ?_, ?_⟩
  · refine hs.cover.prune (fun _ => false) rfl hroot ?_ ?_ ?_ ?_ ?_
    · intro c a _ _
      rw [layout_len, layout_len, hsw.bits]
    · intro c a _ _
      rw [layout_parent, layout_parent, hsw.super]
    · intro c s a _ hF hchild
      exact hclosed hF ⟨_, hchild⟩
    · intro c s a hc _ hchild hn
      rw [layout_child, hsw.bits, hsw.sub_iff hc]
      exact ⟨hchild, hn⟩
    · intro c s a hc _ hchild
      rw [layout_child, hsw.bits, hsw.sub_iff hc] at hchild
      exact hchild
  · rintro a c i s ⟨hc, _⟩ hent
    rw [hsw.sub_iff hc] at hent
    rw [hsw.bits]
    exact hs.fits hc hent.1

lemma shrunk (hdead : ∀ {c}, F c → t.Dead c) : Shrunk t t' T (sweptCover T F) := by
  refine
    { bits := hsw.bits
      items := hsw.items
      stamp := hsw.stamp
      rootBlock := hsw.rootBlock
      universeNet := hsw.universeNet
      mem := And.left
      spare := fun ho => (hsw.spare_iff _).2 (.inl ho)
      gone := ?_ }
  intro c a hc hn
  have hF : F c := by
    by_contra hF
    exact hn ⟨hc, hF⟩
  exact ⟨(hsw.spare_iff c).2 (.inr hF), hdead hF c .refl⟩

lemma filing (h : Filing fam t r T dir) (hroot : ¬ F r) (hlive : ∀ {c}, F c → ∃ a, T c a)
    (hdead : ∀ {c}, F c → t.Dead c) (hclosed : ∀ {c s}, F c → t.Sub c s → F s) :
    Filing fam t' r (sweptCover T F) dir :=
  h.shrunk (hsw.shrunk hdead) (hsw.shape h.shape hroot hclosed)
    (hsw.storage h.storage hlive hdead hclosed)

end

end Swept

/-- The blocks that a walk recycles lie below its start. -/
theorem Shape.bits_lt_of_freed (h : Shape fam t r T) (hb : T b a) (hc : t.Freed b c) :
    (∃ a', T c a') ∧ t.bits b < t.bits c ∧ c ≠ r := by
  rcases hc.under with ⟨o, ho, hoc⟩
  rcases h.mem_of_sub hb ho with ⟨x, _, _, hx, hlt⟩
  rcases h.mem_of_under hx hoc with ⟨hmem, hle, _⟩
  have hpos : t.bits b < t.bits c := lt_of_lt_of_le hlt hle
  exact ⟨hmem, hpos, h.cover.ne_root_of_pos (Nat.lt_of_le_of_lt (Nat.zero_le _) hpos)⟩

/-! ## The items that move -/

/-- The entries that a net on block `b` takes over: those below `b` that have no longer match. -/
def InZone (t : Tree) (T : Coverage) (b : DbObject) (e : Entry) : Prop :=
  T b e.pfx.stream ∧ e.Above (t.bits b) ∧ ∀ c, NetBlock t T e c → t.bits c ≤ t.bits b

namespace Filing

variable {e : Entry}

section

variable (h : Filing fam t r T dir)

include h

lemma block_eq (he : dir o = some e) (hb : T b e.pfx.stream) (hbits : t.bits b = e.pfx.bits) :
    o ∈ t.items e.type b := by
  rcases h.filed he with ⟨c, hc, hc', ho⟩
  rwa [h.shape.cover.unique hb hc (hbits.trans hc'.symm)]

/-- What is listed in a block, in terms of the directory. -/
theorem mem_items_iff (he : dir o = some e) (hb : T b a) (type : InetObjType) :
    o ∈ t.items type b ↔ type = e.type ∧ T b e.pfx.stream ∧ t.bits b = e.pfx.bits := by
  constructor
  · intro ho
    rcases h.filed_only hb ho with ⟨p, hdir, hmem, hbits⟩
    obtain rfl : e = ⟨type, p⟩ := Option.some.inj (he.symm.trans hdir)
    exact ⟨rfl, hmem, hbits⟩
  · rintro ⟨rfl, hmem, hbits⟩
    exact h.block_eq he hmem hbits

lemma mem_map_items_iff (he : dir o = some e) (hb : T b a) (type : InetObjType) :
    (e.type, o) ∈ (t.items type b).map (Prod.mk type) ↔
      type = e.type ∧ T b e.pfx.stream ∧ t.bits b = e.pfx.bits := by
  rw [← h.mem_items_iff he hb type]
  constructor
  · intro hmem
    rcases mem_map.1 hmem with ⟨x, hx, heq⟩
    cases heq
    exact hx
  · intro ho
    have htype := ((h.mem_items_iff he hb type).1 ho).1
    exact mem_map.2 ⟨o, ho, by rw [htype]⟩

/-- The net blocks above an entry of a block without nets are shorter than the block. -/
theorem bits_lt_of_netBlock (hb : T b e.pfx.stream) (hnets : t.items .net b = [])
    (hc : NetBlock t T e c) (hle : t.bits c ≤ t.bits b) : t.bits c < t.bits b := by
  refine lt_of_le_of_ne hle fun heq => hc.2.2 ?_
  rw [h.shape.cover.unique hc.1 hb heq]
  exact hnets

/-- The items of a block and of its sub-blocks, when the walk passes the block. -/
theorem mem_contents_open (hb : T b a) (hlt : t.bits b < fam.bits) (he : dir o = some e)
    {moves : DbObject → List (InetObjType × DbObject)}
    (hmoves : ∀ {s}, t.Sub b s → ((e.type, o) ∈ moves s ↔ T s e.pfx.stream ∧
      t.bits s ≤ e.pfx.bits ∧ ∀ c, NetBlock t T e c → t.bits c < t.bits s)) :
    (e.type, o) ∈ (t.items .range b).map (Prod.mk .range) ++ (t.children b).flatMap moves ↔
      InZone t T b e := by
  rw [mem_append, h.mem_map_items_iff he hb, mem_flatMap]
  constructor
  · rintro (⟨htype, hmem, hbits⟩ | ⟨s, hs, ho⟩)
    · refine ⟨hmem, ?_, fun c hc => hbits ▸ hc.2.1.le⟩
      rw [Entry.Above, ← htype]
      exact le_of_eq hbits
    · have hsub : t.Sub b s := mem_values.1 hs
      rcases (hmoves hsub).1 ho with ⟨hmem, hle, hnets⟩
      rcases h.shape.mem_of_sub hb hsub with ⟨x, hbx, hchild, hsx, hbs⟩
      have hparent := (h.shape.cover.child_mem hbx hchild).2.1
      have hroot := h.shape.cover.ne_root_of_pos (Nat.lt_of_le_of_lt (Nat.zero_le _) hbs)
      refine ⟨h.shape.cover.mem_of_le hbx hsx (le_of_lt hbs) hmem, ?_, ?_⟩
      · have habove : t.bits b < e.pfx.bits := lt_of_lt_of_le hbs hle
        unfold Entry.Above
        split
        · exact habove
        · exact le_of_lt habove
      · intro c hc
        exact h.shape.cover.len_le_parent hmem hc.1 hparent hroot (hnets c hc)
  · rintro ⟨hmem, habove, hnets⟩
    rcases h.filed he with ⟨d, hd, hdbits, ho⟩
    rcases Nat.lt_or_eq_of_le habove.le with hdeep | heq
    · -- The entry lies below the sub-block on the way to it.
      rcases h.shape.cover.exists_child_of_lt hmem hd (by rw [layout_len, hdbits]; exact hdeep)
        with ⟨s, hchild, hsmem, hsle⟩
      have hbs := (h.shape.cover.child_mem hmem hchild).2.2
      have hsub : t.Sub b s := ⟨_, hchild⟩
      refine .inr ⟨s, mem_values.2 hsub, (hmoves hsub).2 ⟨hsmem, ?_, ?_⟩⟩
      · exact hdbits ▸ hsle
      · intro c hc
        exact lt_of_le_of_lt (hnets c hc) hbs
    · refine .inl ⟨?_, hmem, heq⟩
      have hacc := h.accepted he
      rcases e with ⟨type, p⟩
      cases type with
      | net =>
        have habove' : t.bits b < p.bits := habove
        exact absurd heq (ne_of_lt habove')
      | node =>
        have hfull : p.bits = fam.bits := hacc.2
        exact absurd (heq.trans hfull) (ne_of_lt hlt)
      | range => rfl

/-- A visit to a sub-block `s` meets the items in it that no net block hides. -/
theorem mem_contents_sub (fuel : ℕ) (hmem : T s a) (hfuel : fam.bits - t.bits s < fuel)
    (he : dir o = some e) :
    (e.type, o) ∈ t.contents fam fuel s false ↔
      T s e.pfx.stream ∧ t.bits s ≤ e.pfx.bits ∧ ∀ c, NetBlock t T e c → t.bits c < t.bits s := by
  induction fuel generalizing s a with
  | zero => exact absurd hfuel (Nat.not_lt_zero _)
  | succ fuel ih =>
    have hfit := h.shape.bits_le hmem
    have hacc := h.accepted he
    rw [Tree.contents]
    by_cases hslot : t.bits s = fam.bits
    · have hopen : ¬ (false = true) ∧ t.bits s = fam.bits := ⟨Bool.false_ne_true, hslot⟩
      rw [if_pos hopen, h.mem_map_items_iff he hmem]
      constructor
      · rintro ⟨_, hs, hbits⟩
        refine ⟨hs, le_of_eq hbits, fun c hc => ?_⟩
        have hnets := h.items_eq_nil_of_slot hmem hslot (by decide : InetObjType.net ≠ .node)
        exact h.bits_lt_of_netBlock hs hnets hc (hbits ▸ hc.2.1.le)
      · rintro ⟨hs, hle, _⟩
        have hbits : t.bits s = e.pfx.bits := le_antisymm hle (hslot ▸ hacc.bits_le)
        refine ⟨?_, hs, hbits⟩
        rcases e with ⟨type, p⟩
        cases type with
        | net =>
          have hlt : p.bits < fam.bits := hacc.2.1
          exact absurd (hslot.symm.trans hbits) (ne_of_gt hlt)
        | node => rfl
        | range =>
          have hlt : p.bits < fam.bits := hacc.2
          exact absurd (hslot.symm.trans hbits) (ne_of_gt hlt)
    · have hlt : t.bits s < fam.bits := lt_of_le_of_ne hfit hslot
      rw [if_neg (fun hc => hslot hc.2)]
      by_cases hnets : t.items .net s = []
      · rw [if_neg (fun hc => hc.2 hnets), h.mem_contents_open hmem hlt he (fun hsub => by
          rcases h.shape.mem_of_sub hmem hsub with ⟨x, _, _, hx, hbs⟩
          exact ih hx (by omega))]
        constructor
        · rintro ⟨hs, habove, hshort⟩
          exact ⟨hs, habove.le, fun c hc => h.bits_lt_of_netBlock hs hnets hc (hshort c hc)⟩
        · rintro ⟨hs, hle, hshort⟩
          refine ⟨hs, ?_, fun c hc => le_of_lt (hshort c hc)⟩
          unfold Entry.Above
          split
          · rename_i htype
            refine lt_of_le_of_ne hle fun hbits => ?_
            have ho := h.block_eq he hs hbits
            rw [htype, hnets] at ho
            cases ho
          · exact hle
      · rw [if_pos ⟨Bool.false_ne_true, hnets⟩, h.mem_map_items_iff he hmem]
        constructor
        · rintro ⟨htype, hs, hbits⟩
          refine ⟨hs, le_of_eq hbits, fun c hc => ?_⟩
          have habove := hc.2.1
          rw [Entry.Above, if_pos htype.symm] at habove
          exact hbits ▸ habove
        · rintro ⟨hs, hle, hshort⟩
          -- Otherwise `s` itself is a net block above the entry.
          have hself : ¬ e.Above (t.bits s) := fun habove =>
            lt_irrefl _ (hshort s ⟨hs, habove, hnets⟩)
          unfold Entry.Above at hself
          split at hself
          · rename_i htype
            exact ⟨htype.symm, hs, le_antisymm hle (Nat.le_of_not_lt hself)⟩
          · exact absurd hle hself

/-- The items that `Inet_Reparent` moves when it is called for the block `b` of a net. -/
theorem mem_contents_iff (hb : T b a) (hlt : t.bits b < fam.bits) (he : dir o = some e) :
    (e.type, o) ∈ t.contents fam (fam.bits + 1) b true ↔ InZone t T b e := by
  rw [Tree.contents, if_neg (fun hc => hc.1 rfl), if_neg (fun hc => hc.1 rfl),
    h.mem_contents_open hb hlt he]
  intro s hsub
  rcases h.shape.mem_of_sub hb hsub with ⟨x, _, _, hx, hbs⟩
  exact h.mem_contents_sub fam.bits hx (by omega) he

lemma dir_of_mem_contents (fuel : ℕ) (hmem : T s a) {skipNets : Bool} {type : InetObjType}
    (ho : (type, o) ∈ t.contents fam fuel s skipNets) : ∃ p, dir o = some ⟨type, p⟩ := by
  have hlisted : ∀ type', (type, o) ∈ (t.items type' s).map (Prod.mk type') →
      ∃ p, dir o = some ⟨type, p⟩ := by
    intro type' hin
    rcases mem_map.1 hin with ⟨x, hx, heq⟩
    cases heq
    rcases h.filed_only hmem hx with ⟨p, hdir, _⟩
    exact ⟨p, hdir⟩
  induction fuel generalizing s a skipNets with
  | zero => cases ho
  | succ fuel ih =>
    rw [Tree.contents] at ho
    split at ho
    · exact hlisted _ ho
    · split at ho
      · exact hlisted _ ho
      · rcases mem_append.1 ho with hin | hin
        · exact hlisted _ hin
        · rcases mem_flatMap.1 hin with ⟨s', hs', ho'⟩
          rcases h.shape.mem_of_sub hmem (mem_values.1 hs') with ⟨x, _, _, hx, _⟩
          refine ih hx ho' fun type' hin' => ?_
          rcases mem_map.1 hin' with ⟨y, hy, heq⟩
          cases heq
          rcases h.filed_only hx hy with ⟨p, hdir, _⟩
          exact ⟨p, hdir⟩

lemma mem_contents_snd_iff (hb : T b a) (hlt : t.bits b < fam.bits) (he : dir o = some e) :
    o ∈ (t.contents fam (fam.bits + 1) b true).map Prod.snd ↔ InZone t T b e := by
  have hiff := h.mem_contents_iff hb hlt he
  constructor
  · intro hmem
    rcases mem_map.1 hmem with ⟨⟨type, y⟩, hin, rfl⟩
    rcases h.dir_of_mem_contents _ hb hin with ⟨q, hq⟩
    have htype : type = e.type := by rw [← Option.some.inj (hq.symm.trans he)]
    exact hiff.1 (htype ▸ hin)
  · intro hzone
    exact mem_map.2 ⟨_, hiff.2 hzone, rfl⟩

end

end Filing

lemma netof_moveAll (nd : NetData) (net : Option DbObject)
    (moves : List (InetObjType × DbObject)) (o : DbObject) :
    (moveAll nd net moves).netof o = if o ∈ moves.map Prod.snd then net else nd.netof o := by
  induction moves generalizing nd with
  | nil => simp [moveAll]
  | cons m moves ih =>
    have hstep : moveAll nd net (m :: moves) = moveAll (inetSetNetof nd m.2 m.1 net) net moves :=
      rfl
    have hnetof : (inetSetNetof nd m.2 m.1 net).netof = update nd.netof m.2 net := rfl
    rw [hstep, ih, hnetof, map_cons]
    by_cases hlater : o ∈ moves.map Prod.snd
    · rw [if_pos hlater, if_pos (mem_cons_of_mem _ hlater)]
    · rw [if_neg hlater]
      by_cases hm : o = m.2
      · rw [hm, update_self, if_pos mem_cons_self]
      · rw [update_of_ne hm, if_neg]
        rw [mem_cons, not_or]
        exact ⟨hm, hlater⟩

end Inet
end Unameit
