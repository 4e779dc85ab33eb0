import Unameit.Inet.AutoNet

/-!
# Inet.Update — predicting the parent of a net

`Udb_Inet_Update` removes an object at its old prefix and files it at its new one.  The parent that
it is going to have is asked for beforehand, with `Inet_NetofCmd`, which has to say what the tree
will look like once the object is gone from its old place.  The prediction rests on the removal
doing what it should.
-/

namespace Unameit
namespace Inet

variable {a : BitStream} {start : CString} {bits : ℕ}

open BitStream (Agree)

/-! ## The prediction -/

inductive NetofArgs
  | node (address : CString)
  | range (start last : CString)
  | net (start : CString) (bits : ℤ) (bitstring : CString)

def NetofArgs.info (fam : Family) (uuid : DbObject) : NetofArgs → Except Failure InetInfo
  | .node address => .ok (.node address)
  | .range start last => .ok (.range start last [] [])
  | .net start bits bitstring =>
    if bits < 0 then .error (.etoosmall uuid fam.netBitsAttribute bitstring (decimal 0))
    else if bits > (fam.bits : ℤ) - 1 then
      .error (.etoobig uuid fam.netBitsAttribute bitstring (decimal (fam.bits - 1)))
    else .ok (.net start bits.toNat [] [])

def NetData.netBits (nd : NetData) (o : DbObject) : ℕ :=
  match nd.info o with
  | some (.net _ bits _ _) => bits
  | _ => 0

def inetWalkUp (t : Tree) (bits : ℕ) : ℕ → InetBlock → Option InetBlock
  | 0, _ => none
  | fuel + 1, blk =>
    if blk.bits > bits then
      match t.super blk.block with
      | none => none
      | some s => inetWalkUp t bits fuel ⟨t.bits s, s⟩
    else some blk

/-- The part of `Inet_NetofCmd` for a parent `net` that will be deleted before it is inserted
again: the next net with its prefix, or its own parent. -/
def inetNextNet (st : State) (blk : InetBlock) (net : DbObject) :
    Except Failure (Option DbObject) :=
  match inetWalkUp st.tree (st.net.netBits net) (blk.bits + 1) blk with
  | none => .error .stop
  | some blk' =>
    if blk'.bits ≠ st.net.netBits net ∨ inetFirstItem st.tree blk'.block .net ≠ some net then
      .error .stop
    else
      match (st.tree.items .net blk'.block)[1]? with
      | some next => .ok (some next)
      | none => .ok (st.net.netof net)

/-- `Inet_NetofCmd`: the net that will be the parent of object `uuid`. -/
def inetNetofCmd (fam : Family) (st : State) (uuid : DbObject) (args : NetofArgs) :
    Except Failure (Option DbObject) := do
  let info ← args.info fam uuid
  let p ← inetInfoPrefix fam st.tree uuid info
  match info.objType, inetFind fam st.tree p with
  | .net, (some net, some blk) =>
    -- A block of the full length that carries a net stands for its parent.
    let net := if blk.bits = p.bits ∧ inetFirstItem st.tree blk.block .net ≠ none then
        st.net.netof net else some net
    if net = some uuid then inetNextNet st blk uuid else return net
  | _, (net, _) => return net

/-! ## The update -/

def InetInfo.moved : InetInfo → InetInfo → Bool
  | .node address, .node address' => address ≠ address'
  | .net start bits _ _, .net start' bits' _ _ => bits ≠ bits' ∨ start ≠ start'
  | .range start last _ _, .range start' last' _ _ => start ≠ start' ∨ last ≠ last'
  | _, _ => false

def InetInfo.changed : InetInfo → InetInfo → Bool
  | .net _ _ mask type, .net _ _ mask' type' => mask ≠ mask' ∨ type ≠ type'
  | .range _ _ type devices, .range _ _ type' devices' => type ≠ type' ∨ devices ≠ devices'
  | _, _ => false

def inetInsertObject (fam : Family) (st : State) (o : DbObject) (info : InetInfo) :
    Except Failure State := do
  let p ← inetInfoPrefix fam st.tree o info
  return inetInsert fam st p info.objType o

def inetDeleteObject (fam : Family) (st : State) (o : DbObject) (info : InetInfo) (now : ℕ) :
    Except Failure State :=
  match inetInfoPrefix fam st.tree o info with
  | .error _ => .error .stop
  | .ok p =>
    match inetDelete fam st p info.objType o now with
    | none => .error .stop
    | some st' => .ok st'

/-- `Udb_Inet_Update` for one family, with what the object was and what its attributes are now. -/
def udbInetUpdate (fam : Family) (st : State) (o : DbObject) (old new : Option InetInfo)
    (now : ℕ) : Except Failure State :=
  match old, new with
  | none, none => .ok st
  | none, some new => inetInsertObject fam st o new
  | some old, none => inetDeleteObject fam st o old now
  | some old, some new =>
    if old.objType ≠ new.objType then .error .stop
    else if old.moved new then do
      let st ← inetDeleteObject fam st o old now
      inetInsertObject fam st o new
    else if old.changed new then
      .ok { st with
        net := { st.net with
          itemCheck := inetCheck st.net.itemCheck o new.objType } }
    else .ok st

/-! ## Parents without the net that moves -/

variable {fam : Family} {st : State} {r b o : DbObject} {T : Coverage}
  {dir : Directory} {p q : InetPrefix} {n : Option DbObject}

section Drop

variable {e : Entry}

/-- Whether a block takes an entry does not depend on the nets of the block itself. -/
theorem inZone_dropped_iff :
    InZone (droppedState st b .net o).tree T b e ↔ InZone st.tree T b e := by
  refine and_congr_right fun _ => and_congr_right fun _ => forall_congr' fun c => ?_
  by_cases hcb : c = b
  · subst hcb
    exact ⟨fun _ _ => le_refl _, fun _ _ => le_refl _⟩
  · exact imp_congr_left (netBlock_setItems_of_ne hcb)

/-- When net `o` is taken off its block, the entries that it was the parent of fall to its heir,
and no other entry gets another parent. -/
theorem Located.isParent_dropped (hloc : Located st.tree T o ⟨.net, q⟩ b)
    (h : Filing fam st.tree r T dir) (ho : dir o = some ⟨.net, q⟩)
    (hparent : IsParent st.tree T ⟨.net, q⟩ (st.net.netof o)) (hn : IsParent st.tree T e n) :
    IsParent (droppedState st b .net o).tree T e (if n = some o then heir st b o else n) := by
  have hne : st.tree.items .net b ≠ [] := List.ne_nil_of_mem hloc.listed
  split
  · rename_i hself
    subst hself
    refine hloc.isParent_heir h.shape hparent (inZone_dropped_iff.2 ?_)
    -- The net block above the entry is the block that `o` is filed in.
    rcases hn with ⟨c, ⟨hc, hmax⟩, hfirst⟩ | ⟨_, hnone⟩
    · have hlisted : o ∈ st.tree.items .net c := List.mem_of_mem_head? hfirst.symm
      rcases (h.mem_items_iff ho hc.1 .net).1 hlisted with ⟨_, hcq, hbits⟩
      obtain rfl : c = b := h.shape.cover.unique hcq hloc.mem (hbits.trans hloc.bits.symm)
      exact ⟨hc.1, hc.2.1, hmax⟩
    · cases hnone
  · rename_i hother
    by_cases hfirst : inetFirstItem st.tree b .net = some o
    · refine isParent_setItems_of_not_inZone hne (fun hzone => hother ?_) hn
      rw [← hfirst]
      exact hn.unique h.shape (isParent_of_inZone (inZone_dropped_iff.1 hzone) hne)
    · exact (isParent_setItems_of_head .net _ (fun _ => head?_erase_of_ne hfirst) e n).2 hn

/-- Filing a net does not change which nets lie above its own prefix. -/
theorem Enrolled.isParent_self_iff {st' : State} {T' : Coverage}
    {net : Option DbObject} {moves : List (InetObjType × DbObject)}
    (h : Enrolled fam st st' T T' dir ⟨.net, p⟩ o b net moves) (hst : Storage st.tree T) :
    IsParent st'.tree T' ⟨.net, p⟩ n ↔ IsParent st.tree T ⟨.net, p⟩ n := by
  have habove : ∀ m, (Entry.mk .net p).Above m ↔ m < p.bits := fun m => by
    rw [Entry.Above, if_pos rfl]
  have hitems : ∀ {c}, c ≠ b → st'.tree.items .net c = st.tree.items .net c := fun hc => by
    rw [h.items]
    exact setItems_of_ne _ _ (.inr hc)
  have hblock : st'.tree.bits b = p.bits := h.bits_block
  -- The block of the prefix itself is not above the prefix.
  have hne' : ∀ {c}, NetBlock st'.tree T' ⟨.net, p⟩ c → c ≠ b := by
    rintro c hc rfl
    have := (habove _).1 hc.2.1
    omega
  have hne : ∀ {c}, NetBlock st.tree T ⟨.net, p⟩ c → c ≠ b := by
    rintro c hc rfl
    have hlt := (habove _).1 hc.2.1
    rw [← h.bits hc.1] at hlt
    omega
  refine IsParent.congr (fun c => ⟨fun hc => ?_, fun hc => ?_⟩) (fun c hc => h.bits hc.1) ?_
  · have hitem := hitems (hne' hc)
    have hmem : T c p.stream := by
      by_contra hn
      exact hc.2.2 (hitem.trans (hst.blank_items .net (h.fresh hc.1 hn)))
    exact ⟨hmem, h.bits hmem ▸ hc.2.1, hitem ▸ hc.2.2⟩
  · have hitem := hitems (hne hc)
    have hmem : T' c p.stream := by
      by_contra hn
      exact hc.2.2 (h.gone hc.1 hn .net)
    exact ⟨hmem, (h.bits hc.1).symm ▸ hc.2.1, hitem.symm ▸ hc.2.2⟩
  · intro c hc
    rw [inetFirstItem, hitems (hne hc), inetFirstItem]

end Drop

/-! ## What is predicted -/

section Prediction

/-- The walk up from a block below `b` stops at `b`. -/
theorem inetWalkUp_eq {t : Tree} (h : Shape fam t r T) (hb : T b a) (fuel : ℕ) (c : DbObject)
    (hc : T c a) (hle : t.bits b ≤ t.bits c) (hfuel : t.bits c < fuel) :
    inetWalkUp t (t.bits b) fuel ⟨t.bits c, c⟩ = some ⟨t.bits b, b⟩ := by
  induction fuel generalizing c with
  | zero => omega
  | succ fuel ih =>
    rw [inetWalkUp]
    by_cases hlt : t.bits b < t.bits c
    · have hroot : c ≠ r := by
        rintro rfl
        rw [h.bits_root] at hlt
        omega
      rcases h.cover.parent_of_mem hc hroot with ⟨s, hs, hsmem, hchild⟩
      have hshort : t.bits s < t.bits c := (h.cover.child_mem hsmem hchild).2.2
      have hsuper : t.super c = some s := hs
      rw [if_pos hlt]
      simp only [hsuper]
      exact ih s hsmem (h.cover.len_le_parent hc hb hs hroot hlt) (by omega)
    · obtain rfl : c = b := h.cover.unique hc hb (by rw [layout_len]; omega)
      rw [if_neg hlt]

/-- The net that takes the place of `o` is the heir of `o`. -/
theorem Located.inetNextNet_eq (hloc : Located st.tree T o ⟨.net, q⟩ b)
    (h : Filing fam st.tree r T dir) (hbits : st.net.netBits o = q.bits)
    (hfirst : inetFirstItem st.tree b .net = some o) (hb : T b a) {c : DbObject} (hc : T c a)
    (hle : st.tree.bits b ≤ st.tree.bits c) :
    inetNextNet st ⟨st.tree.bits c, c⟩ o = .ok (heir st b o) := by
  have hlen : st.tree.bits b = st.net.netBits o := hloc.bits.trans hbits.symm
  have hwalk := inetWalkUp_eq h.shape hb (st.tree.bits c + 1) c hc hle (Nat.lt_succ_self _)
  rw [hlen] at hwalk
  have hgo : ¬ (st.net.netBits o ≠ st.net.netBits o ∨
      inetFirstItem st.tree b .net ≠ some o) := by
    rintro (hne | hne)
    · exact hne rfl
    · exact hne hfirst
  rw [inetNextNet]
  simp only [hwalk]
  rw [if_neg hgo, heir]
  rw [inetFirstItem] at hfirst
  cases hl : st.tree.items .net b with
  | nil =>
    rw [hl] at hfirst
    cases hfirst
  | cons f l =>
    rw [hl] at hfirst
    obtain rfl : f = o := Option.some.inj hfirst
    rw [List.erase_cons_head]
    cases l with
    | nil => rfl
    | cons g l => rfl

/-- The arguments of an accepted net stand for its attributes. -/
theorem NetofArgs.info_net {bitstring : CString} (hbits : bits < fam.bits) :
    NetofArgs.info fam o (.net start bits bitstring) = .ok (.net start bits [] []) := by
  have hlow : ¬ (bits : ℤ) < 0 := by omega
  have hhigh : ¬ (bits : ℤ) > (fam.bits : ℤ) - 1 := by omega
  rw [NetofArgs.info, if_neg hlow, if_neg hhigh, Int.toNat_natCast]

/-- What `Inet_Find` returns for the prefix of a net leads to the parent of the net. -/
theorem WellFormed.isParent_found (h : WellFormed fam st dir) {net : DbObject} {blk : InetBlock}
    (hfound : Found st.tree r (fun b a => st.tree.Covers a b) p (some net) blk)
    (hfile : Filing fam st.tree r (fun b a => st.tree.Covers a b) dir) :
    IsParent st.tree (fun b a => st.tree.Covers a b) ⟨.net, p⟩
      (if blk.bits = p.bits ∧ inetFirstItem st.tree blk.block .net ≠ none then
        st.net.netof net else some net) := by
  rcases hfound.net_deepest hfile.shape with ⟨c, ⟨⟨hc, hcle, hcne⟩, hcmax⟩, hcfirst⟩
  split
  · rename_i hfull
    -- The net is the first one of the block of the prefix itself.
    have hbits : st.tree.bits blk.block = p.bits := hfound.bits.symm.trans hfull.1
    have hne : st.tree.items .net blk.block ≠ [] := fun hnil => hfull.2 (by
      rw [inetFirstItem, hnil]
      rfl)
    have hge := hcmax blk.block ⟨hfound.mem, hbits.le, hne⟩
    obtain rfl : c = blk.block := hfile.shape.cover.unique hc hfound.mem (by
      rw [layout_len]
      omega)
    have hlisted : net ∈ st.tree.items .net blk.block := List.mem_of_mem_head? hcfirst.symm
    rcases hfile.filed_only hfound.mem hlisted with ⟨q, hq, hmem, hqbits⟩
    exact IsParent.of_same_block hfile.shape hfound.mem hbits hmem hqbits (h.parent hq (by simp))
  · rename_i hshort
    refine hfound.isParent_net hfile.shape fun c' hc' hbits => ?_
    by_contra hne
    have hle := hfound.longest hfile.shape hc' hbits.le
    have hblk : blk.bits = p.bits := le_antisymm hfound.le (hbits ▸ hle)
    obtain rfl : c' = blk.block := hfile.shape.cover.unique hc' hfound.mem (by
      rw [layout_len, hbits, ← hfound.bits, hblk])
    refine hshort ⟨hblk, ?_⟩
    rw [inetFirstItem, ne_eq, List.head?_eq_none_iff]
    exact hne

/-- `Inet_NetofCmd` reports the parent of the prefix, and the heir of `o` where that is `o`
itself. -/
theorem WellFormed.inetNetofCmd_net (h : WellFormed fam st dir) (bitstring : CString)
    (hp : inetNetPrefix fam st.tree o start bits = .ok p) :
    ∃ n, IsParent st.tree (fun b a => st.tree.Covers a b) ⟨.net, p⟩ n ∧
      (n ≠ some o → inetNetofCmd fam st o (.net start bits bitstring) = .ok n) ∧
      ∀ {q b}, dir o = some ⟨.net, q⟩ → st.net.netBits o = q.bits →
        Located st.tree (fun b a => st.tree.Covers a b) o ⟨.net, q⟩ b → n = some o →
        inetNetofCmd fam st o (.net start bits bitstring) = .ok (heir st b o) := by
  rcases h.filing with ⟨r, hfile⟩
  have hlt : bits < fam.bits := by
    rw [← inetNetPrefix_bits hp]
    exact (inetNetPrefix_accepted hp).2.1
  have hpfx : inetInfoPrefix fam st.tree o (.net start bits [] []) = .ok p := hp
  rcases hfile.find p with ⟨net, blk, hfind, hfound⟩
  rcases hfound.net_deepest hfile.shape with ⟨c, ⟨⟨_, _, hcne⟩, _⟩, hcfirst⟩
  cases net with
  | none => exact absurd (List.head?_eq_none_iff.1 hcfirst.symm) hcne
  | some net =>
    have hpar := h.isParent_found hfound hfile
    have hcmd : inetNetofCmd fam st o (.net start bits bitstring) =
        if (if blk.bits = p.bits ∧ inetFirstItem st.tree blk.block .net ≠ none then
          st.net.netof net else some net) = some o then inetNextNet st blk o
        else .ok (if blk.bits = p.bits ∧ inetFirstItem st.tree blk.block .net ≠ none then
          st.net.netof net else some net) := by
      simp only [inetNetofCmd, NetofArgs.info_net hlt, hpfx, bind, Except.bind,
        InetInfo.objType, hfind]
      rfl
    refine ⟨_, hpar, fun hne => ?_, fun {q b} ho hbits hloc hself => ?_⟩
    · rw [hcmd, if_neg hne]
    · rw [hcmd, if_pos hself]
      rw [hself] at hpar
      rcases hpar with ⟨c, ⟨hc, hmax⟩, hfirst⟩ | ⟨_, hnone⟩
      · have hlisted : o ∈ st.tree.items .net c := List.mem_of_mem_head? hfirst.symm
        rcases (hfile.mem_items_iff ho hc.1 .net).1 hlisted with ⟨_, hcq, hcbits⟩
        obtain rfl : c = b :=
          hfile.shape.cover.unique hcq hloc.mem (hcbits.trans hloc.bits.symm)
        have hle := hfound.longest hfile.shape hc.1 hc.2.1.le
        rcases blk with ⟨n, b'⟩
        obtain rfl : n = st.tree.bits b' := hfound.bits
        exact hloc.inetNextNet_eq hfile hbits hfirst.symm hc.1 hfound.mem hle
      · cases hnone

end Prediction

/-! ## What the update does -/

def FiledAs (fam : Family) (st : State) (dir : Directory) (o : DbObject) :
    Option InetInfo → Prop
  | none => dir o = none
  | some info => st.net.info o = some info ∧ info.objType = .net ∧
      ∃ q, inetInfoPrefix fam st.tree o info = .ok q ∧ dir o = some ⟨.net, q⟩

section Update

variable {now : ℕ}

/-- A net that is filed at a prefix gets the parent of the prefix. -/
theorem Filing.netof_inserted (h : Filing fam st.tree r T dir) (hnew : dir o = none)
    (hacc : (Entry.mk .net p).Accepted fam)
    (hnets : ∀ {x q}, dir x = some ⟨.net, q⟩ → IsParent st.tree T ⟨.net, q⟩ (st.net.netof x))
    (hn : IsParent st.tree T ⟨.net, p⟩ n) : (inetInsert fam st p .net o).net.netof o = n := by
  rcases h.inserted hnew hacc (.inl (hacc.alignedAt (by simp))) hnets with
    ⟨T', b, net, hins, henr⟩
  exact hins.parent_new.unique hins.filing.shape ((henr.isParent_self_iff h.storage).2 hn)

/-- A net that is removed and filed at another prefix gets the parent of that prefix, or the heir
of the net where that was the net itself. -/
theorem WellFormed.netof_moved (h : WellFormed fam st dir) (huniv : st.tree.universeNet ≠ some o)
    (ho : dir o = some ⟨.net, q⟩)
    (hloc : Located st.tree (fun b a => st.tree.Covers a b) o ⟨.net, q⟩ b)
    (hsafe : RecycleSafe st.tree (fun b a => st.tree.Covers a b) dir o ⟨.net, q⟩)
    (hacc : (Entry.mk .net p).Accepted fam)
    (hn : IsParent st.tree (fun b a => st.tree.Covers a b) ⟨.net, p⟩ n) (now : ℕ) :
    ∃ st₁, inetDelete fam st q .net o now = some st₁ ∧
      st₁.tree.universeNet = st.tree.universeNet ∧
      (inetInsert fam st₁ p .net o).net.netof o = if n = some o then heir st b o else n := by
  rcases h.filing with ⟨r, hfile⟩
  have hparent := h.parent ho (by simp)
  rcases hloc.deleted_net hfile ho huniv hparent hsafe now with ⟨t', T', hdel, hgone, hshr, _⟩
  refine ⟨_, hdel, hshr.universeNet, ?_⟩
  refine hgone.filing.netof_inserted (Function.update_self _ _ _) hacc ?_ ?_
  · intro x q' hx
    rcases dir_update_none hx with ⟨hxo, hx⟩
    exact hgone.parent hxo hx (h.parent hx (by simp))
  · exact (hshr.isParent_iff _ _).2 (hloc.isParent_dropped hfile ho hparent hn)

/-- An object that stays where it is keeps its parent. -/
theorem udbInetUpdate_kept (fam : Family) (st : State) (o : DbObject) (old new : InetInfo)
    (htype : old.objType = new.objType) (hmoved : old.moved new = false) (now : ℕ) :
    ∃ st', udbInetUpdate fam st o (some old) (some new) now = .ok st' ∧
      st'.net.netof = st.net.netof := by
  simp only [udbInetUpdate, htype, ne_eq, not_true_eq_false, if_false, hmoved, Bool.false_eq_true]
  split
  · exact ⟨_, rfl, rfl⟩
  · exact ⟨_, rfl, rfl⟩

/-- The parent that `Inet_NetofCmd` reports for a net and its new attributes is the one that the
net has after `Udb_Inet_Update`, unless the net has to be removed from a block whose removal also
recycles a block at which the old prefix is not aligned. -/
theorem netof_predicted (h : WellFormed fam st dir) (huniv : st.tree.universeNet ≠ some o)
    {old : Option InetInfo} (hold : FiledAs fam st dir o old) {start : CString} {bits : ℕ}
    (hp : inetNetPrefix fam st.tree o start bits = .ok p) (mask type bitstring : CString)
    (hsafe : ∀ info q, old = some info → info.moved (.net start bits mask type) →
      dir o = some ⟨.net, q⟩ →
      RecycleSafe st.tree (fun b a => st.tree.Covers a b) dir o ⟨.net, q⟩) (now : ℕ) :
    ∃ n st', inetNetofCmd fam st o (.net start bits bitstring) = .ok n ∧
      udbInetUpdate fam (st.setInfo o (some (.net start bits mask type))) o old
        (some (.net start bits mask type)) now = .ok st' ∧
      st'.net.netof o = n := by
  have hacc := inetNetPrefix_accepted hp
  have hnew := h.setInfo o (some (.net start bits mask type))
  have hpfx : ∀ {t : Tree}, t.universeNet = st.tree.universeNet →
      inetInfoPrefix fam t o (.net start bits mask type) = .ok p := by
    intro t ht
    rcases h.universe_first with ⟨_, u, _, hu, _⟩
    refine inetInfoPrefix_congr (t := st.tree) hp ?_
    rw [ht, hu]
    exact Option.some_ne_none u
  rcases h.inetNetofCmd_net bitstring hp with ⟨n, hn, hother, hself⟩
  cases old with
  | none =>
    have hdir : dir o = none := hold
    rcases hnew.filing with ⟨r, hfile⟩
    have hne : n ≠ some o := by
      rintro rfl
      rcases hn.filed hfile with ⟨_, q, _, _, hq, _⟩
      rw [hdir] at hq
      cases hq
    refine ⟨n, inetInsert fam (st.setInfo o (some (.net start bits mask type))) p .net o,
      hother hne, ?_, ?_⟩
    · simp only [udbInetUpdate, inetInsertObject, hpfx (t := (st.setInfo o _).tree) rfl]
      rfl
    · exact hfile.netof_inserted hdir hacc (fun hx => h.parent hx (by simp)) hn
  | some info =>
    rcases hold with ⟨hinfo, hobj, q, hq, hdir⟩
    cases info with
    | node address => cases hobj
    | range start' last' type' devices' => cases hobj
    | net start' bits' mask' type' =>
      rcases h.filing with ⟨r, hfile⟩
      by_cases hmoved : (InetInfo.net start' bits' mask' type').moved
          (.net start bits mask type) = true
      · rcases hfile.located hdir with ⟨b, hloc⟩
        rcases hnew.netof_moved huniv hdir hloc (hsafe _ q rfl hmoved hdir) hacc hn now with
          ⟨st₁, hdel, huniv₁, hnetof⟩
        refine ⟨if n = some o then heir st b o else n, inetInsert fam st₁ p .net o, ?_, ?_,
          hnetof⟩
        · split
          · rename_i hown
            refine hself hdir ?_ hloc hown
            rw [NetData.netBits, hinfo]
            exact (inetNetPrefix_bits hq).symm
          · rename_i hown
            exact hother hown
        · have hq' : inetInfoPrefix fam
              (st.setInfo o (some (.net start bits mask type))).tree o
              (.net start' bits' mask' type') = .ok q := hq
          simp only [udbInetUpdate, InetInfo.objType, ne_eq, not_true_eq_false, if_false, hmoved,
            if_true, inetDeleteObject, hq', hdel, inetInsertObject, bind, Except.bind,
            hpfx huniv₁]
          rfl
      · -- The prefix is the old one, and nothing is filed anew.
        have hkept : bits' = bits ∧ start' = start := by
          simpa [InetInfo.moved, not_or] using hmoved
        rcases hkept with ⟨rfl, rfl⟩
        obtain rfl : q = p := Except.ok.inj (hq.symm.trans hp)
        have hnetof : n = st.net.netof o := hn.unique hfile.shape (h.parent hdir (by simp))
        have hne : n ≠ some o := by
          rintro rfl
          exact hn.ne_self hfile hdir rfl
        rcases udbInetUpdate_kept fam
          (st.setInfo o (some (.net start' bits' mask type))) o
          (.net start' bits' mask' type') (.net start' bits' mask type) rfl
          (Bool.eq_false_iff.2 hmoved) now with ⟨st', hupdate, hkept⟩
        refine ⟨n, st', hother hne, hupdate, ?_⟩
        rw [hkept, hnetof]
        rfl

end Update

/-- Nets 1 and 2 have the same prefix, and net 1 moves below net 2. -/
theorem netof_predicted_moved : ∃ σ st', runOps octetFamily Config.empty
      [.insert 0 (.net ['0', '0'] 0 [] []), .insert 1 (.net ['4', '0'] 2 [] []),
        .insert 2 (.net ['4', '0'] 2 [] [])] = some σ ∧
    inetNetofCmd octetFamily σ.state 1 (.net ['5', '0'] 4 ['4']) = .ok (some 2) ∧
    udbInetUpdate octetFamily (σ.state.setInfo 1 (some (.net ['5', '0'] 4 [] []))) 1
      (some (.net ['4', '0'] 2 [] [])) (some (.net ['5', '0'] 4 [] [])) 0 = .ok st' ∧
    st'.net.netof 1 = some 2 := by
  obtain ⟨σ, hσ, hone, htwo, huniv, hold, hp, hcmd⟩ : ∃ σ,
      runChecked octetFamily (Op.quiet octetFamily) Config.empty
        [.insert 0 (.net ['0', '0'] 0 [] []), .insert 1 (.net ['4', '0'] 2 [] []),
          .insert 2 (.net ['4', '0'] 2 [] [])] = some σ ∧
      σ.dir 1 = some ⟨.net, ⟨2, [0x40]⟩⟩ ∧ σ.dir 2 = some ⟨.net, ⟨2, [0x40]⟩⟩ ∧
      σ.state.tree.universeNet ≠ some 1 ∧
      FiledAs octetFamily σ.state σ.dir 1 (some (.net ['4', '0'] 2 [] [])) ∧
      inetNetPrefix octetFamily σ.state.tree 1 ['5', '0'] 4 = .ok ⟨4, [0x50]⟩ ∧
      inetNetofCmd octetFamily σ.state 1 (.net ['5', '0'] 4 ['4']) = .ok (some 2) :=
    ⟨_, rfl, rfl, rfl, by decide, ⟨rfl, rfl, _, rfl, rfl⟩, rfl, rfl⟩
  obtain ⟨hops, hrun⟩ := run_of_runChecked Op.aligned_of_quiet hσ
  rcases Run.reached (I := fun _ => True) id (fun _ _ => trivial) (fun _ _ _ _ => trivial)
    hrun with rfl | ⟨hvalid, -⟩
  · cases hone
  -- the block of net 1 is not removed, because net 2 is filed there too
  have hshared : ¬ Alone σ.dir 1 ⟨2, [0x40]⟩ := fun halone =>
    halone 2 _ (by decide) htwo ⟨le_rfl, BitStream.Agree.refl _ _⟩
  rcases netof_predicted hvalid.sound.wf huniv hold hp [] [] ['4']
    (fun info q _ _ hq _ halone => by cases hq.symm.trans hone; exact absurd halone hshared) 0 with
    ⟨n, st', hn, hst, hnetof⟩
  obtain rfl : some 2 = n := Except.ok.inj (hcmd.symm.trans hn)
  exact ⟨σ, st', hops, hcmd, hst, hnetof⟩

def octetMoving : State :=
  octetKept.setInfo 2 (some (.net ['1', '0'] 4 [] []))

/-- When net 2 moves below net 3, its removal loses net 3: the parent of net 2 is the universe
net and not net 3. -/
theorem netof_mispredicted : WellFormed octetFamily octetMoving octetKeptDir ∧
    octetMoving.tree.universeNet ≠ some 2 ∧
    FiledAs octetFamily octetMoving octetKeptDir 2 (some (.net ['1', '0'] 4 [] [])) ∧
    inetNetPrefix octetFamily octetMoving.tree 2 ['4', '8'] 5 = .ok ⟨5, [0x48]⟩ ∧
    inetNetofCmd octetFamily octetMoving 2 (.net ['4', '8'] 5 ['5']) = .ok (some 3) ∧
    ∃ st', udbInetUpdate octetFamily (octetMoving.setInfo 2 (some (.net ['4', '8'] 5 [] []))) 2
        (some (.net ['1', '0'] 4 [] [])) (some (.net ['4', '8'] 5 [] [])) 0 = .ok st' ∧
      st'.net.netof 2 = some 0 := by
  have hrun : (udbInetUpdate octetFamily
      (octetMoving.setInfo 2 (some (.net ['4', '8'] 5 [] []))) 2
      (some (.net ['1', '0'] 4 [] [])) (some (.net ['4', '8'] 5 [] [])) 0).toOption.map
        (fun st => st.net.netof 2) = some (some 0) := by decide +kernel
  refine ⟨octetKept_wellFormed.setInfo 2 _, by decide, ⟨rfl, rfl, _, rfl, rfl⟩, rfl,
    by decide +kernel, ?_⟩
  rcases Option.map_eq_some_iff.1 hrun with ⟨st', hst, hnetof⟩
  refine ⟨st', ?_, hnetof⟩
  cases hres : udbInetUpdate octetFamily
      (octetMoving.setInfo 2 (some (.net ['4', '8'] 5 [] []))) 2
      (some (.net ['1', '0'] 4 [] [])) (some (.net ['4', '8'] 5 [] [])) 0 with
  | error err =>
    rw [hres] at hst
    cases hst
  | ok st₁ =>
    rw [hres] at hst
    cases hst
    rfl

end Inet
end Unameit
