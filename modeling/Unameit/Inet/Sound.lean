import Unameit.Inet.Ledger

/-!
# Inet.Sound — what every step of a family keeps

`Sound fam st dir` is the full invariant of a family: the tree is well formed and holds the items
of `dir`, every parent (also of a range) is the longest-prefix match, every net and range knows its
block, and the books of the net blocks are exact.

`Filing.deleted` is the counterpart of `Filing.inserted`: one statement of what `Inet_Delete` does,
for items of all types.  From the two, `Sound.insert` and `Sound.delete` say that both operations
keep the invariant, as long as they only touch blocks at which the prefix is aligned.
-/

namespace Unameit
namespace Inet

open Function (update update_self update_of_ne)
open Option

variable {b x o c : DbObject} {st' st : State} {dir : Directory} {e' e : Entry} {fam : Family}

open BitStream (Agree)
open Directory

/-! ## Deletion of an item of any type -/

/-- What the removal of item `o` recycles is aligned. -/
def DeleteSafe (t : Tree) (T : Coverage) (dir : Directory) (o : DbObject)
    (e : Entry) : Prop :=
  RecycleSafe t T dir o e ∧ (e.type = .range → RangeSafe t T o e.pfx)

def departing (fam : Family) (st : State) (type : InetObjType) (b o : DbObject) :
    List (InetObjType × DbObject) :=
  if type = .net then leaving fam st b o else []

/-- What removing `o`, which is filed with entry `e` in block `b`, writes: blocks without content
may go away, `o` leaves the list of `b`, and the items in `departing` get another parent. -/
structure Withdrawn (fam : Family) (st st' : State) (T T' : Coverage)
    (dir : Directory) (e : Entry) (o b : DbObject) (now : ℕ) : Prop where
  universeNet : st'.tree.universeNet = st.tree.universeNet
  located : Located st.tree T o e b
  items : st'.tree.items = (st.tree.setItems e.type b ((st.tree.items e.type b).erase o)).items
  bits : st'.tree.bits = st.tree.bits
  mem : ∀ {c a}, T' c a → T c a
  gone : ∀ {c a}, T c a → ¬ T' c a → ∀ type, st'.tree.items type c = []
  stamp : st'.tree.stamp =
    if e.type = .node ∧ (st.tree.items e.type b).erase o = [] then
      update st.tree.stamp b (now / 60)
    else st.tree.stamp
  natural : (e.type = .net → Alone dir o e.pfx) → st'.tree.items .net b = [] →
    st'.tree.items .range b = [] → e.pfx.bits % 4 ≠ 0 → ∀ a, ¬ T' b a
  blockCheck : st'.blockCheck =
    if e.type ≠ .range ∧ ((st.tree.items e.type b).erase o).length = 1 then
      inetUncheck st.blockCheck b
    else st.blockCheck
  net : st'.net = inetSetNetof
    (if e.type = .node then st.net
      else (moveAll st.net (heir st b o) (departing fam st e.type b o)).setItemBlock o none)
    o e.type none

variable {r : DbObject} {T : Coverage} {now : ℕ}

section Delete

lemma Located.withdrawn_node {p : InetPrefix} (hloc : Located st.tree T o ⟨.node, p⟩ b)
    (h : Filing fam st.tree r T dir) (ho : dir o = some ⟨.node, p⟩)
    (hst : st' = { droppedState st b .node o with
      tree := { (droppedState st b .node o).tree with
        stamp :=
          if (st.tree.items .node b).erase o = [] then update st.tree.stamp b (now / 60)
          else st.tree.stamp }
      net := inetSetNetof st.net o .node none }) :
    Withdrawn fam st st' T T dir ⟨.node, p⟩ o b now := by
  subst hst
  refine
    { universeNet := rfl
      located := hloc
      items := rfl
      bits := rfl
      mem := id
      gone := fun hc hn => absurd hc hn
      stamp := by simp
      natural := ?_
      blockCheck := rfl
      net := rfl }
  intro _ _ _ hodd
  have hbits : p.bits = fam.bits := (h.accepted ho).2
  have := fam_bits fam
  exact absurd (by show p.bits % 4 = 0; omega) hodd

lemma Located.withdrawn_of_shrunk {t' : Tree} {T' : Coverage} (hloc : Located st.tree T o e b)
    (htype : e.type ≠ .node) (hshr : Shrunk (droppedState st b e.type o).tree t' T T')
    (hodd : (e.type = .net → Alone dir o e.pfx) → t'.items .net b = [] → t'.items .range b = [] →
      e.pfx.bits % 4 ≠ 0 → ∀ a, ¬ T' b a) :
    Withdrawn fam st
      { droppedState st b e.type o with
        tree := t'
        net := inetSetNetof
          ((moveAll st.net (heir st b o) (departing fam st e.type b o)).setItemBlock o none)
          o e.type none } T T' dir e o b now :=
  { universeNet := hshr.universeNet
    located := hloc
    items := hshr.items
    bits := hshr.bits
    mem := hshr.mem
    gone := fun hc hn type => by
      rw [hshr.items]
      exact (hshr.gone hc hn).2 type
    stamp := by
      rw [if_neg fun hc => htype hc.1]
      exact hshr.stamp
    natural := hodd
    blockCheck := rfl
    net := by rw [if_neg htype] }

/-- `Inet_Delete` of an item whose removal only recycles aligned blocks. -/
theorem Filing.deleted (h : Filing fam st.tree r T dir) (ho : dir o = some e)
    (hparent : IsParent st.tree T e (st.net.netof o)) (hsafe : DeleteSafe st.tree T dir o e)
    (hres : inetDelete fam st e.pfx e.type o now = some st') :
    st.tree.universeNet ≠ some o ∧ ∃ T' b, Deleted fam st st' r T T' dir o ∧
      Withdrawn fam st st' T T' dir e o b now := by
  rcases h.located ho with ⟨b, hloc⟩
  have huniv : st.tree.universeNet ≠ some o := by
    by_cases htype : e.type = .net
    · exact hloc.ne_universe h htype hres
    · exact h.ne_universe ho htype
  refine ⟨huniv, ?_⟩
  rcases e with ⟨type, p⟩
  cases type with
  | node =>
    have hnow := hloc.stamp_le h huniv hres
    rcases hloc.deleted_node h ho huniv hnow with ⟨st'', heq, hdel⟩
    obtain rfl := some.inj (hres.symm.trans heq)
    have hst := some.inj (hres.symm.trans (hloc.delete_node h huniv hnow))
    exact ⟨T, b, hdel, hloc.withdrawn_node h ho hst⟩
  | net =>
    rcases hloc.deleted_net h ho huniv hparent hsafe.1 now with
      ⟨t', T', heq, hdel, hshr, hodd⟩
    obtain rfl := some.inj (hres.symm.trans heq)
    refine ⟨T', b, hdel, hloc.withdrawn_of_shrunk (by simp) hshr ?_⟩
    intro halone hnet _ hbits
    rw [hshr.items] at hnet
    exact hodd ((setItems_self _ _ _ _).symm.trans hnet) (halone rfl) hbits
  | range =>
    rcases hloc.deleted_range h ho (hsafe.2 rfl) now with ⟨t', T', heq, hdel, hshr, hodd⟩
    obtain rfl := some.inj (hres.symm.trans heq)
    refine ⟨T', b, hdel, hloc.withdrawn_of_shrunk (by simp) hshr ?_⟩
    intro _ hnet hrange hbits
    rw [hshr.items] at hnet hrange
    refine hodd ((setItems_self _ _ _ _).symm.trans hrange) ?_ hbits
    rw [← hnet]
    exact (setItems_of_ne _ _ (.inl (by simp))).symm

end Delete

/-! ## The invariant -/

/-- A family is sound: its tree is well formed and holds the items of `dir`, every parent is the
longest-prefix match, every net and range knows its block, and the books are exact. -/
structure Sound (fam : Family) (st : State) (dir : Directory) : Prop where
  wf : WellFormed fam st dir
  parent : ∀ {o e}, dir o = some e →
    IsParent st.tree (fun b a => st.tree.Covers a b) e (st.net.netof o)
  unfiled : ∀ {o}, dir o = none → st.net.netof o = none
  block : ∀ {o e}, dir o = some e → e.type ≠ .node →
    ∃ b, st.net.itemBlock o = some b ∧ Located st.tree (fun b a => st.tree.Covers a b) o e b
  finite : {o | dir o ≠ none}.Finite
  ledger : Ledger st.net dir.ofType

lemma Directory.ofType_unique {type type' : InetObjType} (h : x ∈ dir.ofType type)
    (h' : x ∈ dir.ofType type') : type' = type := by
  rcases h with ⟨p, hp⟩
  rcases h' with ⟨q, hq⟩
  rw [hp] at hq
  cases hq
  rfl

lemma Directory.ofType_finite (h : {o | dir o ≠ none}.Finite) (type : InetObjType) :
    (dir.ofType type).Finite := by
  refine h.subset ?_
  rintro x ⟨p, hp⟩
  show dir x ≠ none
  rw [hp]
  exact some_ne_none _

/-- An item that belongs to no account can be taken out of the directory. -/
theorem roll_dir_erase {nd : NetData} (ho : nd.account o = none) (type : InetObjType) (c : DbObject) :
    roll (Directory.ofType (update dir o none) type) nd.account c =
      roll (dir.ofType type) nd.account c := by
  ext x
  by_cases hxo : x = o
  · subst hxo
    simp [roll, ho]
  · simp [roll, ofType, update_of_ne hxo]

variable {n : DbObject}

section Parents

variable {t : Tree}

/-- A parent is a filed net, listed in a block above the item. -/
theorem IsParent.filed (h : Filing fam t r T dir) (hpar : IsParent t T e (some n)) :
    ∃ c q, NetBlock t T e c ∧ n ∈ t.items .net c ∧ dir n = some ⟨.net, q⟩ ∧ T c q.stream ∧
      t.bits c = q.bits := by
  rcases hpar with ⟨c, ⟨hc, _⟩, hn⟩ | ⟨_, hn⟩
  · have hmem : n ∈ t.items .net c := List.mem_of_mem_head? hn.symm
    rcases h.filed_only hc.1 hmem with ⟨q, hq, hmem', hbits⟩
    exact ⟨c, q, hc, hmem, hq, hmem', hbits⟩
  · cases hn

lemma IsParent.ne_self (h : Filing fam t r T dir) (ho : dir o = some e)
    (hpar : IsParent t T e (some n)) : n ≠ o := by
  rintro rfl
  rcases hpar.filed h with ⟨c, q, hc, _, hq, _, hbits⟩
  obtain rfl : e = ⟨.net, q⟩ := some.inj (ho.symm.trans hq)
  have habove : t.bits c < q.bits := hc.2.1
  omega

end Parents

namespace Sound

/-- The account of an item is a block of the tree, and lists the parent of the item. -/
theorem account_live (h : Sound fam st dir) (hx : st.net.account x = some c) :
    (∃ a, st.tree.Covers a c) ∧ ∃ n, st.net.netof x = some n ∧ n ∈ st.tree.items .net c := by
  rcases bind_eq_some_iff.1 hx with ⟨n, hn, hblock⟩
  cases hdir : dir x with
  | none =>
    rw [h.unfiled hdir] at hn
    cases hn
  | some e =>
    have hpar := h.parent hdir
    rw [hn] at hpar
    rcases h.wf.filing with ⟨r, hfile⟩
    rcases hpar.filed hfile with ⟨_, q, _, _, hq, _⟩
    rcases h.block hq (by simp) with ⟨b, hb, hloc⟩
    obtain rfl : b = c := some.inj (hb.symm.trans hblock)
    exact ⟨⟨_, hloc.mem⟩, n, hn, hloc.listed⟩

/-- An item whose parent is listed in a block belongs to the account of that block. -/
theorem account_of_netof (h : Sound fam st dir) {a : BitStream} (hc : st.tree.Covers a c)
    (hn : n ∈ st.tree.items .net c) (hx : st.net.netof x = some n) : st.net.account x = some c := by
  rcases h.wf.filing with ⟨r, hfile⟩
  rcases hfile.filed_only hc hn with ⟨q, hq, hmem, hbits⟩
  rcases h.block hq (by simp) with ⟨b, hb, hloc⟩
  obtain rfl : b = c := hfile.shape.cover.unique hloc.mem hmem (hloc.bits.trans hbits.symm)
  rw [NetData.account, hx]
  exact hb

lemma netof_ne (h : Sound fam st dir) (hnew : dir o = none) (x : DbObject) :
    st.net.netof x ≠ some o := by
  intro hx
  cases hdir : dir x with
  | none =>
    rw [h.unfiled hdir] at hx
    cases hx
  | some e =>
    have hpar := h.parent hdir
    rw [hx] at hpar
    rcases h.wf.filing with ⟨r, hfile⟩
    rcases hpar.filed hfile with ⟨_, q, _, _, hq, _⟩
    rw [hnew] at hq
    cases hq

lemma account_unfiled (h : Sound fam st dir) (hx : dir x = none) : st.net.account x = none := by
  rw [NetData.account, h.unfiled hx]
  rfl

end Sound

/-! ## Insertion keeps the invariant -/

variable {T' : Coverage}

namespace Enrolled

variable {net : Option DbObject} {moves : List (InetObjType × DbObject)}

section

variable (h : Enrolled fam st st' T T' dir e o b net moves)

include h

lemma netof (x : DbObject) :
    st'.net.netof x =
      if x = o then net else if x ∈ moves.map Prod.snd then some o else st.net.netof x := by
  rcases h.net with ⟨nd, hnd, heq⟩
  have hbase : (if e.type = .node then nd else nd.setItemBlock o (some b)).netof = st.net.netof := by
    split <;> exact hnd.netof
  rw [heq]
  show update (moveAll _ _ _).netof o net x = _
  by_cases hxo : x = o
  · rw [hxo, update_self, if_pos rfl]
  · rw [update_of_ne hxo, if_neg hxo, netof_moveAll, hbase]

lemma itemBlock :
    st'.net.itemBlock =
      if e.type = .node then st.net.itemBlock
      else update st.net.itemBlock o (some b) := by
  rcases h.net with ⟨nd, hnd, heq⟩
  rw [heq, (inetSetNetof_frame _ _ _ _).1, (moveAll_frame _ _ _).1]
  split
  · exact hnd.itemBlock
  · show update nd.itemBlock o (some b) = _
    rw [hnd.itemBlock]

lemma info : st'.net.info = st.net.info := by
  rcases h.net with ⟨nd, hnd, heq⟩
  rw [heq, (inetSetNetof_frame _ _ _ _).2, (moveAll_frame _ _ _).2]
  split <;> exact hnd.info

lemma located (hloc : Located st.tree T x e' c) : Located st'.tree T' x e' c := by
  refine ⟨?_, (h.bits hloc.mem).trans hloc.bits, ?_⟩
  · by_contra hn
    have hlisted := hloc.listed
    rw [h.gone hloc.mem hn] at hlisted
    cases hlisted
  · rw [h.items]
    exact mem_setItems_append.2 (.inl hloc.listed)

lemma located_new : Located st'.tree T' o e b := by
  refine ⟨h.mem, h.bits_block, ?_⟩
  rw [h.items]
  exact mem_setItems_append.2 (.inr ⟨rfl, rfl, rfl⟩)

end

structure Opened (st : State) (S S' : InetObjType → Set DbObject) (nd : NetData) : Prop where
  ledger : Ledger nd S'
  account : nd.account = st.net.account
  roll : ∀ type c, roll (S' type) nd.account c = roll (S type) st.net.account c
  netRanges : nd.netRanges = st.net.netRanges
  info : nd.info = st.net.info
  count : ∀ type c, (nd.netCount type c = st.net.netCount type c ∧
      nd.netAny type c = st.net.netAny type c) ∨
    (nd.netCount type c = 0 ∧ nd.netAny type c = none)

section

variable (henr : Enrolled fam st st' T T' dir e o b net moves)

include henr

/-- An insertion only opens the books and moves items. -/
theorem opened (h : Sound fam st dir) (hnew : dir o = none) :
    ∃ nd, Opened st dir.ofType (Directory.ofType (update dir o (some e))) nd ∧
      nd.itemBlock = st'.net.itemBlock ∧
      st'.net = inetSetNetof (moveAll nd (some o) moves) o e.type net := by
  rcases henr.net with ⟨nd, hnd, heq⟩
  have haccount : nd.account = st.net.account := by
    funext x
    rw [NetData.account, hnd.netof, hnd.itemBlock]
    rfl
  -- The new item is in no account yet.
  have hroll : ∀ type c, Unameit.roll (ofType (update dir o (some e)) type)
      nd.account c = Unameit.roll (dir.ofType type) st.net.account c := by
    intro type c
    ext x
    rw [haccount]
    by_cases hx : x = o
    · subst hx
      simp [Unameit.roll, h.account_unfiled hnew]
    · simp [Unameit.roll, ofType, update_of_ne hx]
  have hcount : ∀ type c, (nd.netCount type c = st.net.netCount type c ∧
        nd.netAny type c = st.net.netAny type c) ∨
      (nd.netCount type c = 0 ∧ nd.netAny type c = none) := by
    intro type c
    rcases hnd.count type c with hsame | hspare
    · exact .inl hsame
    · exact .inr hspare.2
  have hbooks : Ledger nd (ofType (update dir o (some e))) := by
    refine h.ledger.congr hroll (fun type _ c => ?_) hnd.netRanges
    rcases hnd.count type c with hsame | ⟨hspare, hzero, _⟩
    · exact .inl hsame.1
    · refine .inr ⟨hzero, ?_⟩
      rw [Set.eq_empty_iff_forall_notMem]
      rintro x ⟨_, hx⟩
      rcases (h.account_live hx).1 with ⟨a, ha⟩
      exact h.wf.storage.outside hspare ha
  have hblock : (if e.type = .node then nd else nd.setItemBlock o (some b)).itemBlock =
      st'.net.itemBlock := by
    rw [heq, (inetSetNetof_frame _ _ _ _).1, (moveAll_frame _ _ _).1]
  refine ⟨_, ?_, hblock, heq⟩
  split
  · exact ⟨hbooks, haccount, hroll, hnd.netRanges, hnd.info, hcount⟩
  · have hno : ∀ x, nd.netof x ≠ some o := by
      intro x
      rw [hnd.netof]
      exact h.netof_ne hnew x
    have hsame := account_setItemBlock hno (some b)
    refine ⟨hbooks.setItemBlock hno _, hsame.trans haccount, ?_, hnd.netRanges, hnd.info, hcount⟩
    rw [hsame]
    exact hroll

lemma moved_filed (hnew : dir o = none) :
    ∀ m ∈ moves, m.2 ∈ Directory.ofType (update dir o (some e)) m.1 := by
  intro m hm
  rcases henr.moved m hm with ⟨q, hq⟩
  exact ⟨q, (update_of_ne (Placed.ne_of_dir hnew hq) _ _).trans hq⟩

lemma ledger (h : Sound fam st dir) (hnew : dir o = none)
    (hfin : {x | update dir o (some e) x ≠ none}.Finite) :
    Ledger st'.net (Directory.ofType (update dir o (some e))) := by
  rcases henr.opened h hnew with ⟨nd, hopen, _, heq⟩
  have hfinite := ofType_finite hfin
  have hself : o ∈ ofType (update dir o (some e)) e.type :=
    ⟨e.pfx, update_self _ _ _⟩
  rw [heq]
  exact (hopen.ledger.moveAll hfinite ofType_unique _ (henr.moved_filed hnew)).setNetof
    hfinite hself (fun _ hx => ofType_unique hself hx) net

end

end Enrolled

lemma finite_update (h : {x | dir x ≠ none}.Finite) (o : DbObject) (e : Option Entry) :
    {x | update dir o e x ≠ none}.Finite := by
  refine (h.insert o).subset fun x hx => ?_
  by_cases hxo : x = o
  · exact .inl hxo
  · refine .inr ?_
    have hne : update dir o e x ≠ none := hx
    rwa [update_of_ne hxo] at hne

/-- Filing an item whose block exists or is aligned keeps a family sound. -/
theorem Sound.insert (h : Sound fam st dir) (hnew : dir o = none) (hacc : e.Accepted fam)
    (halign : e.pfx.AlignedAt e.pfx.bits ∨ ∃ b, Reaches fam st.tree e.pfx b) :
    ∃ b net, Sound fam (inetInsert fam st e.pfx e.type o) (update dir o (some e)) ∧
      Enrolled fam st (inetInsert fam st e.pfx e.type o) (fun b a => st.tree.Covers a b)
        (fun b a => (inetInsert fam st e.pfx e.type o).tree.Covers a b) dir e o b net
        (joining fam st e.pfx e.type) := by
  rcases h.wf.filing with ⟨r, hfile⟩
  rcases hfile.inserted hnew hacc halign (fun hx => h.parent hx) with ⟨T', b, net, hins, henr⟩
  obtain rfl := hins.filing.shape.covers_eq
  have hfin := finite_update h.finite o (some e)
  refine ⟨b, net,
    { wf := h.wf.insert hnew hacc halign
      parent := ?_
      unfiled := ?_
      block := ?_
      finite := hfin
      ledger := henr.ledger h hnew hfin }, henr⟩
  · intro x e' hx
    rcases dir_update_some hx with ⟨rfl, rfl⟩ | ⟨_, hx⟩
    · exact hins.parent_new
    · exact hins.parent hx (h.parent hx)
  · intro x hx
    have hxo : x ≠ o := by
      rintro rfl
      rw [update_self] at hx
      cases hx
    rw [update_of_ne hxo] at hx
    rw [henr.netof, if_neg hxo, if_neg, h.unfiled hx]
    intro hmem
    rcases List.mem_map.1 hmem with ⟨m, hm, rfl⟩
    rcases henr.moved m hm with ⟨q, hq⟩
    rw [hx] at hq
    cases hq
  · intro x e' hx htype
    rw [henr.itemBlock]
    rcases dir_update_some hx with ⟨rfl, rfl⟩ | ⟨hxo, hx⟩
    · rw [if_neg htype, update_self]
      exact ⟨b, rfl, henr.located_new⟩
    · rcases h.block hx htype with ⟨c, hc, hloc⟩
      refine ⟨c, ?_, henr.located hloc⟩
      split
      · exact hc
      · rw [update_of_ne hxo]
        exact hc

/-! ## Deletion keeps the invariant -/

/-- What moves when an item goes away is filed, and is not the item itself. -/
theorem Located.departing_filed (hloc : Located st.tree T o e b) (h : Filing fam st.tree r T dir)
    (ho : dir o = some e) (huniv : st.tree.universeNet ≠ some o) {m : InetObjType × DbObject}
    (hm : m ∈ departing fam st e.type b o) : m.2 ≠ o ∧ ∃ q, dir m.2 = some ⟨m.1, q⟩ := by
  unfold departing leaving at hm
  split at hm
  · rename_i htype
    split at hm
    · have hdrop : Filing fam (droppedState st b .net o).tree r T (update dir o none) := by
        have hfile := h.drop ho hloc huniv
        rw [htype] at hfile
        exact hfile
      rcases hdrop.dir_of_mem_contents _ hloc.mem hm with ⟨q, hq⟩
      have hmo : m.2 ≠ o := by
        intro hmo
        rw [hmo, update_self] at hq
        cases hq
      rw [update_of_ne hmo] at hq
      exact ⟨hmo, q, hq⟩
    · cases hm
  · cases hm

namespace Withdrawn

section

variable (h : Withdrawn fam st st' T T' dir e o b now)

include h

lemma netof (x : DbObject) :
    st'.net.netof x =
      if x = o then none
      else if x ∈ (departing fam st e.type b o).map Prod.snd then heir st b o
      else st.net.netof x := by
  have hbase : (if e.type = .node then st.net
      else (moveAll st.net (heir st b o) (departing fam st e.type b o)).setItemBlock o none).netof x =
      (moveAll st.net (heir st b o) (departing fam st e.type b o)).netof x := by
    split
    · rename_i htype
      rw [htype]
      rfl
    · rfl
  rw [h.net]
  show update (NetData.netof _) o none x = _
  by_cases hxo : x = o
  · rw [hxo, update_self, if_pos rfl]
  · rw [update_of_ne hxo, if_neg hxo, hbase, netof_moveAll]

lemma itemBlock (hxo : x ≠ o) : st'.net.itemBlock x = st.net.itemBlock x := by
  rw [h.net, (inetSetNetof_frame _ _ _ _).1]
  split
  · rfl
  · show update (moveAll _ _ _).itemBlock o none x = _
    rw [update_of_ne hxo, (moveAll_frame _ _ _).1]

lemma info : st'.net.info = st.net.info := by
  rw [h.net, (inetSetNetof_frame _ _ _ _).2]
  split
  · rfl
  · exact (moveAll_frame _ _ _).2

lemma other_located (hnodup : (st.tree.items e.type b).Nodup) (hxo : x ≠ o)
    (hloc : Located st.tree T x e' c) : Located st'.tree T' x e' c := by
  have hlisted : x ∈ st'.tree.items e'.type c := by
    rw [h.items]
    exact (mem_setItems_erase hnodup).2 ⟨hloc.listed, fun hc => hxo hc.1⟩
  refine ⟨?_, by rw [h.bits]; exact hloc.bits, hlisted⟩
  by_contra hn
  rw [h.gone hloc.mem hn] at hlisted
  cases hlisted

end

/-- A deletion only moves items and closes the account of the item: at that point nobody has it as
a parent any more. -/
theorem closed (hwith : Withdrawn fam st st' T T' dir e o b now)
    (hno : ∀ x, x ≠ o → st'.net.netof x ≠ some o) (hself : st.net.netof o ≠ some o)
    (hmoved : ∀ m ∈ departing fam st e.type b o, m.2 ≠ o) :
    ∃ nd, nd.account = (moveAll st.net (heir st b o) (departing fam st e.type b o)).account ∧
      (∀ type, nd.tally type =
        (moveAll st.net (heir st b o) (departing fam st e.type b o)).tally type) ∧
      nd.netRanges = (moveAll st.net (heir st b o) (departing fam st e.type b o)).netRanges ∧
      nd.info = st.net.info ∧ st'.net = inetSetNetof nd o e.type none := by
  refine ⟨_, ?_, ?_, ?_, ?_, hwith.net⟩
  · split
    · rename_i htype
      rw [htype]
      rfl
    · refine account_setItemBlock (fun x hx => ?_) none
      by_cases hxo : x = o
      · subst hxo
        rw [netof_moveAll, if_neg] at hx
        · exact hself hx
        · intro hmem
          rcases List.mem_map.1 hmem with ⟨m, hm, hmx⟩
          exact hmoved m hm hmx
      · refine hno x hxo ?_
        rw [hwith.netof, if_neg hxo, ← netof_moveAll]
        exact hx
  · intro type
    split
    · rename_i htype
      rw [htype]
      rfl
    · rfl
  · split
    · rename_i htype
      rw [htype]
      rfl
    · rfl
  · split
    · rfl
    · exact (moveAll_frame _ _ _).2

lemma ledger (hwith : Withdrawn fam st st' T T' dir e o b now) (h : Sound fam st dir)
    (ho : dir o = some e) (hno : ∀ x, x ≠ o → st'.net.netof x ≠ some o)
    (hself : st.net.netof o ≠ some o)
    (hmoved : ∀ m ∈ departing fam st e.type b o, m.2 ≠ o ∧ ∃ q, dir m.2 = some ⟨m.1, q⟩) :
    Ledger st'.net (Directory.ofType (update dir o none)) := by
  have hfinite := ofType_finite h.finite
  have hmoves := h.ledger.moveAll hfinite ofType_unique (heir st b o)
    fun m hm => (hmoved m hm).2
  rcases hwith.closed hno hself fun m hm => (hmoved m hm).1 with
    ⟨nd, hacc, htally, hranges, _, heq⟩
  have hbase : Ledger nd dir.ofType := by
    refine hmoves.congr (fun type c => by rw [hacc]) (fun type _ c => .inl ?_) hranges
    exact congrFun (congrArg Tally.count (htally type)) c
  have hmem : o ∈ dir.ofType e.type := ⟨e.pfx, ho⟩
  have hdone := hbase.setNetof hfinite hmem (fun _ hx => ofType_unique hmem hx) none
  rw [← heq] at hdone
  refine hdone.congr (fun type c => ?_) (fun _ _ _ => .inl rfl) rfl
  exact roll_dir_erase (by rw [NetData.account, hwith.netof, if_pos rfl]; rfl) type c

end Withdrawn

/-- Removing an item keeps a family sound, as long as only aligned blocks are recycled. -/
theorem Sound.delete (h : Sound fam st dir) (ho : dir o = some e)
    (hsafe : DeleteSafe st.tree (fun b a => st.tree.Covers a b) dir o e)
    (hres : inetDelete fam st e.pfx e.type o now = some st') :
    ∃ b, Sound fam st' (update dir o none) ∧
      Withdrawn fam st st' (fun b a => st.tree.Covers a b) (fun b a => st'.tree.Covers a b) dir e o
        b now := by
  rcases h.wf.filing with ⟨r, hfile⟩
  rcases hfile.deleted ho (h.parent ho) hsafe hres with ⟨huniv, T', b, hdel, hwith⟩
  obtain rfl := hdel.filing.shape.covers_eq
  have hmoved := fun m hm => hwith.located.departing_filed (m := m) hfile ho huniv hm
  have hunfiled : ∀ {x}, update dir o none x = none → st'.net.netof x = none := by
    intro x hx
    by_cases hxo : x = o
    · rw [hwith.netof, if_pos hxo]
    · rw [update_of_ne hxo] at hx
      rw [hwith.netof, if_neg hxo, if_neg, h.unfiled hx]
      intro hmem
      rcases List.mem_map.1 hmem with ⟨m, hm, rfl⟩
      rcases (hmoved m hm).2 with ⟨q, hq⟩
      rw [hx] at hq
      cases hq
  have hparent : ∀ {x e'}, update dir o none x = some e' →
      IsParent st'.tree (fun b a => st'.tree.Covers a b) e' (st'.net.netof x) := by
    intro x e' hx
    rcases dir_update_none hx with ⟨hxo, hdir⟩
    exact hdel.parent hxo hdir (h.parent hdir)
  refine ⟨b,
    { wf := hdel.filing.wellFormed fun hx _ => hparent hx
      parent := hparent
      unfiled := hunfiled
      block := ?_
      finite := finite_update h.finite o none
      ledger := hwith.ledger h ho ?_ ?_ hmoved }, hwith⟩
  · intro x e' hx htype
    rcases dir_update_none hx with ⟨hxo, hdir⟩
    rcases h.block hdir htype with ⟨c, hc, hloc⟩
    refine ⟨c, (hwith.itemBlock hxo).trans hc, ?_⟩
    exact hwith.other_located (hfile.listed_once e.type hwith.located.mem) hxo hloc
  · intro x _ hx
    cases hdir : update dir o none x with
    | none =>
      rw [hunfiled hdir] at hx
      cases hx
    | some e' =>
      have hpar := hparent hdir
      rw [hx] at hpar
      rcases hpar.filed hdel.filing with ⟨_, q, _, _, hq, _⟩
      rw [update_self] at hq
      cases hq
  · intro hself
    have hpar := h.parent ho
    rw [hself] at hpar
    exact hpar.ne_self hfile ho rfl

end Inet
end Unameit
