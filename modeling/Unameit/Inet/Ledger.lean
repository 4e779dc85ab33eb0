import Mathlib.Data.Char
import Mathlib.Data.List.Lex
import Unameit.Lib.Accounts
import Unameit.Inet.Ranges

/-!
# Inet.Ledger — the books of the net blocks

A block with nets keeps books on the items whose parent is one of its nets: how many nodes and
subnets there are, one node and one subnet as representatives, and the list of the ranges.  They
are kept up to date by `Inet_Set_Netof`, one item at a time.

The account of an item is the block of its parent net.  In these terms `Inet_Set_Netof` is a
transfer from one account to another, `Ledger` says that the books are exact, and the lemmas of
this module say what a list of moves does to them.
-/

namespace Unameit

open Function (update update_self update_of_ne)

lemma strcmp_pos_iff (s t : CString) : strcmp s t > 0 ↔ t < s := by
  unfold strcmp
  split
  · rename_i hlt
    simpa using le_of_lt hlt
  · split
    · rename_i heq
      simp [heq]
    · rename_i hle hne
      simpa using lt_of_le_of_ne (not_lt.1 hle) (Ne.symm hne)

namespace Inet

/-! ## Accounts -/

def NetData.account (nd : NetData) (x : DbObject) : Option DbObject :=
  (nd.netof x).bind nd.itemBlock

def NetData.tally (nd : NetData) (type : InetObjType) : Tally DbObject DbObject where
  count := nd.netCount type
  any := nd.netAny type

def Directory.ofType (dir : Directory) (type : InetObjType) : Set DbObject :=
  {x | ∃ p, dir x = some ⟨type, p⟩}

/-- The books are exact: the counts are those of the nodes and nets in the accounts, and the lists
have exactly the ranges. -/
structure Ledger (nd : NetData) (S : InetObjType → Set DbObject) : Prop where
  counts : ∀ type, type ≠ .range → (nd.tally type).Exact (S type) nd.account
  ranges : Rosters nd.netRanges (S .range) nd.account

section SetNetof

variable (nd : NetData) (x : DbObject) (type : InetObjType) (net : Option DbObject)

lemma inetUpdateBlockCount_eq (old new : Option DbObject) :
    (inetUpdateBlockCount nd old new x type).tally type = (nd.tally type).transfer old new x ∧
      (∀ type', type' ≠ type →
        (inetUpdateBlockCount nd old new x type).tally type' = nd.tally type') ∧
      (inetUpdateBlockCount nd old new x type).netRanges = nd.netRanges ∧
      (inetUpdateBlockCount nd old new x type).itemBlock = nd.itemBlock ∧
      (inetUpdateBlockCount nd old new x type).info = nd.info := by
  have hsplit : ∀ (p : Prop) [Decidable p] (f g : InetObjType → DbObject → Option DbObject)
      (k : InetObjType), (if p then f else g) k = if p then f k else g k := by
    intro p _ f g k
    split <;> rfl
  unfold inetUpdateBlockCount Tally.transfer
  by_cases hsame : old = new
  · rw [if_pos hsame, if_pos hsame]
    exact ⟨rfl, fun _ _ => rfl, rfl, rfl, rfl⟩
  · rw [if_neg hsame, if_neg hsame]
    cases old with
    | none =>
      cases new with
      | none => exact ⟨rfl, fun _ _ => rfl, rfl, rfl, rfl⟩
      | some c =>
        refine ⟨?_, fun type' htype => ?_, rfl, rfl, rfl⟩
        · simp only [NetData.tally, Tally.join, hsplit, update_self]
          rfl
        · simp only [NetData.tally, hsplit, update_of_ne htype, ite_self]
    | some b =>
      cases new with
      | none =>
        refine ⟨?_, fun type' htype => ?_, rfl, rfl, rfl⟩
        · simp only [NetData.tally, Tally.leave, hsplit, update_self]
          congr
        · simp only [NetData.tally, hsplit, update_of_ne htype, ite_self]
      | some c =>
        refine ⟨?_, fun type' htype => ?_, rfl, rfl, rfl⟩
        · simp only [NetData.tally, Tally.leave, Tally.join, hsplit, update_self]
          congr
        · simp only [NetData.tally, hsplit, update_of_ne htype, ite_self]

lemma rangePosition_eq (start : CString) (l : List DbObject) :
    rangePosition nd start l = position (fun y => decide (nd.rangeStart y < start)) l := by
  induction l with
  | nil => rfl
  | cons y l ih =>
    rw [rangePosition, position, ih]
    simp only [strcmp_pos_iff, decide_eq_true_eq]

lemma inetMoveRange_eq (old new : Option DbObject) :
    inetMoveRange nd old new x =
      { nd with
        netRanges := rosterMove nd.netRanges old new x
          (position fun y => decide (nd.rangeStart y < nd.rangeStart x)) } := by
  unfold inetMoveRange rosterMove
  by_cases hsame : old = new
  · rw [if_pos hsame, if_pos hsame]
  · rw [if_neg hsame, if_neg hsame]
    simp only [rangePosition_eq]
    cases old <;> cases new <;> rfl

/-- An item that gets another parent moves to another account; `setItemBlock` aside, nothing else
decides about accounts. -/
theorem inetSetNetof_account : (inetSetNetof nd x type net).account =
    update nd.account x (net.bind nd.itemBlock) := by
  have hblock : (inetSetNetof nd x type net).itemBlock = nd.itemBlock := by
    cases type with
    | node => exact (inetUpdateBlockCount_eq nd x .node _ _).2.2.2.1
    | net => exact (inetUpdateBlockCount_eq nd x .net _ _).2.2.2.1
    | range =>
      show (inetMoveRange nd _ _ x).itemBlock = _
      rw [inetMoveRange_eq]
  funext y
  unfold NetData.account
  rw [hblock]
  show (update nd.netof x net y).bind nd.itemBlock = _
  by_cases hyx : y = x
  · subst hyx
    rw [update_self, update_self]
  · rw [update_of_ne hyx, update_of_ne hyx]

lemma inetSetNetof_frame : (inetSetNetof nd x type net).itemBlock = nd.itemBlock ∧
    (inetSetNetof nd x type net).info = nd.info := by
  cases type with
  | node => exact (inetUpdateBlockCount_eq nd x .node _ _).2.2.2
  | net => exact (inetUpdateBlockCount_eq nd x .net _ _).2.2.2
  | range =>
    show (inetMoveRange nd _ _ x).itemBlock = _ ∧ (inetMoveRange nd _ _ x).info = _
    rw [inetMoveRange_eq]
    exact ⟨rfl, rfl⟩

lemma inetSetNetof_tally {type' : InetObjType} (htype : type' ≠ .range) :
    (inetSetNetof nd x type net).tally type' =
      if type' = type then (nd.tally type').transfer (nd.account x) (net.bind nd.itemBlock) x
      else nd.tally type' := by
  cases type with
  | node =>
    by_cases h : type' = .node
    · rw [h]
      exact (inetUpdateBlockCount_eq nd x .node _ _).1
    · rw [if_neg h]
      exact (inetUpdateBlockCount_eq nd x .node _ _).2.1 type' h
  | net =>
    by_cases h : type' = .net
    · rw [h]
      exact (inetUpdateBlockCount_eq nd x .net _ _).1
    · rw [if_neg h]
      exact (inetUpdateBlockCount_eq nd x .net _ _).2.1 type' h
  | range =>
    rw [if_neg htype]
    show (inetMoveRange nd _ _ x).tally type' = _
    rw [inetMoveRange_eq]
    rfl

lemma inetSetNetof_netRanges : (inetSetNetof nd x type net).netRanges =
    if type = .range then
      rosterMove nd.netRanges (nd.account x) (net.bind nd.itemBlock) x
        (position fun y => decide (nd.rangeStart y < nd.rangeStart x))
    else nd.netRanges := by
  cases type with
  | node => exact (inetUpdateBlockCount_eq nd x .node _ _).2.2.1
  | net => exact (inetUpdateBlockCount_eq nd x .net _ _).2.2.1
  | range =>
    show (inetMoveRange nd _ _ x).netRanges = _
    rw [inetMoveRange_eq]
    rfl

end SetNetof

/-! ## Exact books -/

variable {nd : NetData} {S : InetObjType → Set DbObject} {type : InetObjType}

section Ledger

variable {x o : DbObject}

lemma Ledger.setNetof (h : Ledger nd S) (hfin : ∀ type, (S type).Finite) (hx : x ∈ S type)
    (hone : ∀ type', x ∈ S type' → type' = type) (net : Option DbObject) :
    Ledger (inetSetNetof nd x type net) S := by
  -- The account of `x` plays no role for the items of other types.
  have hother : ∀ type', type' ≠ type → ∀ c,
      roll (S type') (update nd.account x (net.bind nd.itemBlock)) c =
        roll (S type') nd.account c := by
    intro type' htype' c
    ext y
    by_cases hyx : y = x
    · subst hyx
      have hout : y ∉ S type' := fun hy => htype' (hone type' hy)
      simp [roll, hout]
    · simp [roll, hyx]
  refine ⟨fun type' htype' => ?_, ?_⟩
  · rw [inetSetNetof_tally _ _ _ _ htype', inetSetNetof_account]
    by_cases hsame : type' = type
    · subst hsame
      rw [if_pos rfl]
      exact (h.counts type' htype').transfer (hfin type') hx _
    · rw [if_neg hsame]
      intro c
      rw [hother type' hsame]
      exact h.counts type' htype' c
  · rw [inetSetNetof_netRanges, inetSetNetof_account]
    by_cases hrange : type = .range
    · subst hrange
      exact h.ranges.move hx _ (position_le_length _)
    · rw [if_neg hrange]
      intro c
      rw [hother .range fun hc => hrange hc.symm]
      exact h.ranges c

/-- A list of moves of filed items keeps the books exact. -/
theorem Ledger.moveAll (h : Ledger nd S) (hfin : ∀ type, (S type).Finite)
    (hone : ∀ {type type' x}, x ∈ S type → x ∈ S type' → type' = type) (net : Option DbObject)
    {moves : List (InetObjType × DbObject)} (hmoves : ∀ m ∈ moves, m.2 ∈ S m.1) :
    Ledger (moveAll nd net moves) S := by
  induction moves generalizing nd with
  | nil => exact h
  | cons m moves ih =>
    have hm := hmoves m List.mem_cons_self
    exact ih (h.setNetof hfin hm (fun _ => hone hm) net)
      fun m' hm' => hmoves m' (List.mem_cons_of_mem m hm')

/-- The books only depend on who is in which account. -/
theorem Ledger.congr {nd' : NetData} {S' : InetObjType → Set DbObject} (h : Ledger nd S)
    (hroll : ∀ type c, roll (S' type) nd'.account c = roll (S type) nd.account c)
    (hcount : ∀ type, type ≠ .range → ∀ c, nd'.netCount type c = nd.netCount type c ∨
      (nd'.netCount type c = 0 ∧ roll (S type) nd.account c = ∅))
    (hranges : nd'.netRanges = nd.netRanges) : Ledger nd' S' := by
  refine ⟨fun type htype c => ?_, fun c => ?_⟩
  · rw [hroll]
    rcases hcount type htype c with hc | ⟨hc, hempty⟩
    · exact hc.trans (h.counts type htype c)
    · rw [hempty, Set.ncard_empty]
      exact hc
  · rw [hroll, hranges]
    exact h.ranges c

lemma account_setItemBlock (hno : ∀ x, nd.netof x ≠ some o) (blk : Option DbObject) :
    (nd.setItemBlock o blk).account = nd.account := by
  funext x
  show (nd.netof x).bind (update nd.itemBlock o blk) = (nd.netof x).bind nd.itemBlock
  cases hx : nd.netof x with
  | none => rfl
  | some n =>
    have hne : n ≠ o := by
      rintro rfl
      exact hno x hx
    exact update_of_ne hne _ _

/-- The block of a net that is nobody's parent does not matter. -/
theorem Ledger.setItemBlock (h : Ledger nd S) (hno : ∀ x, nd.netof x ≠ some o)
    (blk : Option DbObject) : Ledger (nd.setItemBlock o blk) S := by
  refine h.congr (fun type c => ?_) (fun _ _ _ => .inl rfl) rfl
  rw [account_setItemBlock hno]

end Ledger

/-! ## A list of moves -/

section Moves

variable {net : Option DbObject} {moves : List (InetObjType × DbObject)} {c : DbObject}

lemma moveAll_frame (nd : NetData) (net : Option DbObject) (moves : List (InetObjType × DbObject)) :
    (moveAll nd net moves).itemBlock = nd.itemBlock ∧ (moveAll nd net moves).info = nd.info := by
  induction moves generalizing nd with
  | nil => exact ⟨rfl, rfl⟩
  | cons m moves ih =>
    have hstep := inetSetNetof_frame nd m.2 m.1 net
    have hrest := ih (inetSetNetof nd m.2 m.1 net)
    exact ⟨hrest.1.trans hstep.1, hrest.2.trans hstep.2⟩

lemma account_moveAll (nd : NetData) (net : Option DbObject)
    (moves : List (InetObjType × DbObject)) (x : DbObject) :
    (moveAll nd net moves).account x =
      if x ∈ moves.map Prod.snd then net.bind nd.itemBlock else nd.account x := by
  unfold NetData.account
  rw [netof_moveAll, (moveAll_frame nd net moves).1]
  split <;> rfl

/-- Other accounts than the one that receives the items stay steady. -/
theorem moveAll_steady {rep : Option DbObject} (h : (nd.tally type).Steady c rep) (hL : Ledger nd S)
    (hfin : ∀ type, (S type).Finite)
    (hone : ∀ {type type' x}, x ∈ S type → x ∈ S type' → type' = type)
    (hmoves : ∀ m ∈ moves, m.2 ∈ S m.1) (htype : type ≠ .range)
    (hnet : net.bind nd.itemBlock ≠ some c) : ((moveAll nd net moves).tally type).Steady c rep := by
  induction moves generalizing nd with
  | nil => exact h
  | cons m moves ih =>
    have hm := hmoves m List.mem_cons_self
    have hL' := hL.setNetof hfin hm (fun _ => hone hm) net
    refine ih ?_ hL' (fun m' hm' => hmoves m' (List.mem_cons_of_mem m hm')) ?_
    · rw [inetSetNetof_tally _ _ _ _ htype]
      split
      · rename_i hsame
        exact h.transfer (hL.counts type htype) (hfin type) (hsame ▸ hm) hnet
      · exact h
    · rw [(inetSetNetof_frame nd m.2 m.1 net).1]
      exact hnet

/-- The account that receives the items keeps a valid representative. -/
theorem moveAll_vouched (h : (nd.tally type).Vouched (S type) nd.account c)
    (hL : Ledger nd S) (hfin : ∀ type, (S type).Finite)
    (hone : ∀ {type type' x}, x ∈ S type → x ∈ S type' → type' = type)
    (hmoves : ∀ m ∈ moves, m.2 ∈ S m.1) (htype : type ≠ .range)
    (hnet : net.bind nd.itemBlock = some c) :
    ((moveAll nd net moves).tally type).Vouched (S type) (moveAll nd net moves).account c := by
  induction moves generalizing nd with
  | nil => exact h
  | cons m moves ih =>
    have hm := hmoves m List.mem_cons_self
    have hL' := hL.setNetof hfin hm (fun _ => hone hm) net
    refine ih ?_ hL' (fun m' hm' => hmoves m' (List.mem_cons_of_mem m hm')) ?_
    · rw [inetSetNetof_tally _ _ _ _ htype, inetSetNetof_account, hnet]
      by_cases hsame : type = m.1
      · subst hsame
        rw [if_pos rfl]
        exact h.transfer_new (hL.counts _ htype) hm
      · rw [if_neg hsame]
        have hout : m.2 ∉ S type := fun hx => hsame (hone hm hx)
        refine ⟨h.1, fun hc => ?_⟩
        rcases h.2 hc with ⟨y, hy, hrep⟩
        refine ⟨y, ⟨hy.1, ?_⟩, hrep⟩
        rw [update_of_ne]
        · exact hy.2
        · rintro rfl
          exact hout hy.1
    · rw [(inetSetNetof_frame nd m.2 m.1 net).1]
      exact hnet

/-- The account that receives the items keeps its representative, if it has members. -/
theorem netAny_moveAll_of_pos (hpos : 0 < nd.netCount type c) (htype : type ≠ .range)
    (hnet : net.bind nd.itemBlock = some c) :
    (moveAll nd net moves).netAny type c = nd.netAny type c := by
  induction moves generalizing nd with
  | nil => rfl
  | cons m moves ih =>
    have hstep : ((inetSetNetof nd m.2 m.1 net).tally type).any c = (nd.tally type).any c ∧
        0 < ((inetSetNetof nd m.2 m.1 net).tally type).count c := by
      rw [inetSetNetof_tally _ _ _ _ htype, hnet]
      split
      · by_cases hsame : nd.account m.2 = some c
        · rw [hsame, Tally.transfer_self]
          exact ⟨rfl, hpos⟩
        · rcases (nd.tally type).transfer_new m.2 hsame with ⟨hcount, hany⟩
          have hmore : ¬ (nd.tally type).count c + 1 = 1 := by
            show ¬ nd.netCount type c + 1 = 1
            omega
          rw [hcount, hany, if_neg hmore]
          refine ⟨rfl, ?_⟩
          show 0 < nd.netCount type c + 1
          omega
      · exact ⟨rfl, hpos⟩
    have hrest : (moveAll (inetSetNetof nd m.2 m.1 net) net moves).netAny type c =
        (inetSetNetof nd m.2 m.1 net).netAny type c := by
      refine ih hstep.2 ?_
      rw [(inetSetNetof_frame nd m.2 m.1 net).1]
      exact hnet
    exact hrest.trans hstep.1

/-- Moves keep all representatives valid, unless one leaves while others stay. -/
theorem vouched_moveAll (h : ∀ c, (nd.tally type).Vouched (S type) nd.account c)
    (hL : Ledger nd S) (hfin : ∀ type, (S type).Finite)
    (hone : ∀ {type type' x}, x ∈ S type → x ∈ S type' → type' = type)
    (hmoves : ∀ m ∈ moves, m.2 ∈ S m.1) (htype : type ≠ .range)
    (hkeep : ∀ {c x y}, x ∈ roll (S type) nd.account c → nd.netAny type c = some x →
      x ∈ moves.map Prod.snd → y ∈ roll (S type) nd.account c → y ∈ moves.map Prod.snd)
    (c : DbObject) :
    ((moveAll nd net moves).tally type).Vouched (S type) (moveAll nd net moves).account c := by
  by_cases hnet : net.bind nd.itemBlock = some c
  · exact moveAll_vouched (h c) hL hfin hone hmoves htype hnet
  · refine (moveAll_steady (h c).steady hL hfin hone hmoves htype hnet).vouched fun hcount => ?_
    rcases ((hL.moveAll hfin hone net hmoves).counts type htype).exists_mem hcount with ⟨y, hy, hyc⟩
    rw [account_moveAll] at hyc
    split at hyc
    · exact absurd hyc hnet
    · -- Somebody stays, so that the representative stays, too.
      rename_i hstay
      have hold : y ∈ roll (S type) nd.account c := ⟨hy, hyc⟩
      rcases (h c).2 (ne_of_gt ((hL.counts type htype).count_pos (hfin type) hold)) with
        ⟨x, hx, hany⟩
      refine ⟨x, ⟨hx.1, ?_⟩, hany⟩
      rw [account_moveAll, if_neg fun hmem => hstay (hkeep hx hany hmem hold)]
      exact hx.2

/-- The representatives after one item got another parent. -/
theorem vouched_setNetof {x : DbObject} {xtype : InetObjType}
    (h : ∀ type, type ≠ .range → ∀ c, (nd.tally type).Vouched (S type) nd.account c)
    (hL : Ledger nd S) (hfin : ∀ type, (S type).Finite) (hx : x ∈ S xtype)
    (hone : ∀ type', x ∈ S type' → type' = xtype)
    (hkeep : xtype ≠ .range → ∀ c, nd.account x = some c → net.bind nd.itemBlock ≠ some c →
      nd.netAny xtype c = some x → ∀ y ∈ roll (S xtype) nd.account c, y = x)
    (htype : type ≠ .range) (c : DbObject) :
    ((inetSetNetof nd x xtype net).tally type).Vouched (S type)
      (inetSetNetof nd x xtype net).account c := by
  rw [inetSetNetof_tally _ _ _ _ htype, inetSetNetof_account]
  by_cases hsame : type = xtype
  · subst hsame
    rw [if_pos rfl]
    exact Tally.Vouched.transfer (h type htype) (hL.counts type htype) (hfin type) hx
      (hkeep htype) c
  · rw [if_neg hsame]
    refine ⟨(h type htype c).1, fun hcount => ?_⟩
    rcases (h type htype c).2 hcount with ⟨y, hy, hany⟩
    refine ⟨y, ⟨hy.1, ?_⟩, hany⟩
    rw [update_of_ne]
    · exact hy.2
    · rintro rfl
      exact hsame (hone type hy.1)

end Moves

end Inet
end Unameit
