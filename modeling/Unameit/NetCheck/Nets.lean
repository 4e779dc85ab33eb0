import Unameit.NetCheck.Basic
import Unameit.Lib.Loops

/-!
# NetCheck.Nets — what the check of nets finds

`unameit_inet_check_nets` compares each net with its parent, and then with its own contents.  The
first comparison is made as intended.  The second takes nearly every net for subnetted, because it
compares the mask with the last address of the net instead of its length, and where this happens to
agree it calls a command that does not exist.
-/

namespace Unameit
namespace NetCheck

variable (info : Info) (db : Db)

/-! ## The rules -/

def ParentFits (net subnet : DbObject) : Prop :=
  (db.net net).Subnetted ∧
    ((db.net net).netType = .fixed →
      (db.net subnet).netBits = unameitAddressMaskBits (db.net net).netMask) ∧
    ¬ (info.netZero = .reserved ∧ (db.net subnet).netStart = (db.net net).netStart) ∧
    ¬ (info.lastNet = .reserved ∧ (db.net subnet).netEnd = (db.net net).netEnd)

/-- A net that is not subnetted has no subnets, any other net has neither nodes nor ranges. -/
def ContentsFit (net : DbObject) : Prop :=
  if (db.net net).Subnetted then db.netRanges net = [] ∧ db.netAnode net = none
  else db.netAsubnet net = none

def NetsFit (nets : List DbObject) : Prop :=
  (∀ s ∈ nets, ∀ p, (db.net s).netof = some p → ParentFits info db p s) ∧
    ∀ s ∈ nets, ContentsFit db s

/-- The nets that are refused by themselves: those without a parent, those with a mask that counts
as equal to the last address, and those with ranges or nodes. -/
def Refused (exprEq : ℤ → CString → Bool) (net : DbObject) : Prop :=
  (db.net net).netof = none ∨
    ((db.net net).netType = .fixed ∧
      exprEq (unameitAddressMaskBits (db.net net).netMask) (db.net net).netEnd) ∨
    db.netRanges net ≠ [] ∨ db.netAnode net ≠ none

/-! ## The loops -/

variable {info db} {exprEq : ℤ → CString → Bool} {net subnet : DbObject} {nets : List DbObject}
  {order : List (Option DbObject)}

lemma checkSubnet_ok_iff (hsub : (db.net net).Subnetted) :
    checkSubnet info db net subnet = .ok () ↔ ParentFits info db net subnet := by
  unfold checkSubnet ParentFits
  by_cases hbits : (db.net net).netType = .fixed ∧
      (db.net subnet).netBits ≠ unameitAddressMaskBits (db.net net).netMask
  · rw [if_pos hbits]
    exact iff_of_false (by simp) fun h => hbits.2 (h.2.1 hbits.1)
  rw [if_neg hbits]
  by_cases hzero : info.netZero = .reserved ∧ (db.net subnet).netStart = (db.net net).netStart
  · rw [if_pos hzero]
    exact iff_of_false (by simp) fun h => h.2.2.1 hzero
  rw [if_neg hzero]
  by_cases hlast : info.lastNet = .reserved ∧ (db.net subnet).netEnd = (db.net net).netEnd
  · rw [if_pos hlast]
    exact iff_of_false (by simp) fun h => h.2.2.2 hlast
  rw [if_neg hlast]
  refine iff_of_true rfl ⟨hsub, fun hfixed => ?_, hzero, hlast⟩
  by_contra hne
  exact hbits ⟨hfixed, hne⟩

/-- The round for one parent passes if all its checked subnets fit. -/
theorem checkParent_ok_iff (hs : ∃ s ∈ nets, (db.net s).netof = some net) :
    checkParent info db nets (some net) = .ok () ↔
      ∀ s ∈ nets, (db.net s).netof = some net → ParentFits info db net s := by
  unfold checkParent
  by_cases hsub : (db.net net).Subnetted
  · simp only [if_pos hsub]
    rw [forM_ok_iff]
    simp only [List.mem_filter, decide_eq_true_eq, and_imp, checkSubnet_ok_iff hsub]
  · simp only [if_neg hsub]
    obtain ⟨s, hs, hnetof⟩ := hs
    exact iff_of_false (by simp) fun h => hsub (h s hs hnetof).1

lemma checkContents_ok_iff (hnetof : (db.net net).netof ≠ none) :
    checkContents exprEq db net = .ok () ↔ ¬ Refused db exprEq net := by
  unfold checkContents Refused
  by_cases heq : (db.net net).netType = .fixed ∧
      exprEq (unameitAddressMaskBits (db.net net).netMask) (db.net net).netEnd
  · simp only [if_pos heq]
    exact iff_of_false (by simp) fun h => h (.inr (.inl heq))
  simp only [if_neg heq]
  cases hranges : db.netRanges net with
  | cons r l =>
    exact iff_of_false (by simp) fun h => h (.inr (.inr (.inl (by simp))))
  | nil =>
    cases hnode : db.netAnode net with
    | some n => exact iff_of_false (by simp) fun h => h (.inr (.inr (.inr (by simp))))
    | none =>
      refine iff_of_true rfl ?_
      rintro (h | h | h | h)
      · exact hnetof h
      · exact heq h
      · exact h rfl
      · exact h rfl

lemma checkNets_ok_iff (horder : ArrayNames order (nets.map fun s => (db.net s).netof)) :
    unameitInetCheckNets exprEq info db order nets = .ok () ↔
      (∀ s ∈ nets, ∀ p, (db.net s).netof = some p → ParentFits info db p s) ∧
        ∀ s ∈ nets, ¬ Refused db exprEq s := by
  have hparents : order.forM (checkParent info db nets) = .ok () ↔
      (∀ s ∈ nets, (db.net s).netof ≠ none) ∧
        ∀ s ∈ nets, ∀ p, (db.net s).netof = some p → ParentFits info db p s := by
    rw [forM_ok_iff]
    have hmem : ∀ {s}, s ∈ nets → (db.net s).netof ∈ order := fun hs =>
      (horder.2 _).2 (List.mem_map.2 ⟨_, hs, rfl⟩)
    constructor
    · intro h
      refine ⟨fun s hs hnone => ?_, fun s hs p hp => ?_⟩
      · have := h _ (hmem hs)
        rw [hnone] at this
        cases this
      · exact (checkParent_ok_iff ⟨s, hs, hp⟩).1 (h _ (hp ▸ hmem hs)) s hs hp
    · rintro ⟨hsome, hfit⟩ p hp
      obtain ⟨s, hs, hnetof⟩ := List.mem_map.1 ((horder.2 p).1 hp)
      cases p with
      | none => exact absurd hnetof (hsome s hs)
      | some p => exact (checkParent_ok_iff ⟨s, hs, hnetof⟩).2 fun s hs => hfit s hs p
  have hrun : unameitInetCheckNets exprEq info db order nets = .ok () ↔
      order.forM (checkParent info db nets) = .ok () ∧
        nets.forM (checkContents exprEq db) = .ok () := by
    unfold unameitInetCheckNets
    cases order.forM (checkParent info db nets) with
    | error e => exact iff_of_false (by simp [bind, Except.bind]) (by simp)
    | ok u => simp [bind, Except.bind]
  rw [hrun, hparents, forM_ok_iff]
  constructor
  · rintro ⟨⟨hsome, hfit⟩, hcontents⟩
    exact ⟨hfit, fun s hs => (checkContents_ok_iff (hsome s hs)).1 (hcontents s hs)⟩
  · rintro ⟨hfit, hcontents⟩
    have hsome : ∀ s ∈ nets, (db.net s).netof ≠ none :=
      fun s hs hnone => hcontents s hs (.inl hnone)
    exact ⟨⟨hsome, hfit⟩, fun s hs => (checkContents_ok_iff (hsome s hs)).2 (hcontents s hs)⟩

/-- Two conditions on the elements of a list hold throughout at the same time if some element breaks
both, or there are elements that break only the one if and only if there are elements that break
only the other. -/
theorem forall_iff_forall_iff {α : Type} {l : List α} {p q : α → Prop} :
    ((∀ x ∈ l, p x) ↔ ∀ x ∈ l, q x) ↔
      (∃ x ∈ l, ¬ p x ∧ ¬ q x) ∨ ((∃ x ∈ l, ¬ p x ∧ q x) ↔ ∃ x ∈ l, p x ∧ ¬ q x) := by
  have hsplit : ∀ p q : α → Prop, (∃ x ∈ l, ¬ p x) ↔
      (∃ x ∈ l, ¬ p x ∧ ¬ q x) ∨ ∃ x ∈ l, ¬ p x ∧ q x := by
    intro p q
    constructor
    · rintro ⟨x, hx, hp⟩
      by_cases hq : q x
      · exact .inr ⟨x, hx, hp, hq⟩
      · exact .inl ⟨x, hx, hp, hq⟩
    · rintro (⟨x, hx, hp, -⟩ | ⟨x, hx, hp, -⟩)
      · exact ⟨x, hx, hp⟩
      · exact ⟨x, hx, hp⟩
  rw [← or_iff_or_iff, ← hsplit p q]
  have hswap : (∃ x ∈ l, ¬ p x ∧ ¬ q x) ∨ (∃ x ∈ l, p x ∧ ¬ q x) ↔ ∃ x ∈ l, ¬ q x := by
    rw [hsplit q p]
    simp only [and_comm]
  have hnot : ∀ p : α → Prop, (∃ x ∈ l, ¬ p x) ↔ ¬ ∀ x ∈ l, p x := by
    intro p
    simp
  rw [hswap, hnot p, hnot q, not_iff_not]

/-- The check of nets passes exactly when the nets keep the rules, if and only if: some net does not
fit its parent, or some net is refused that also breaks the rule for its contents, or nets are
refused that keep this rule just when nets pass that break it. -/
theorem checkNets_exact_iff (exprEq : ℤ → CString → Bool) (info : Info) (db : Db)
    (order : List (Option DbObject)) (nets : List DbObject)
    (horder : ArrayNames order (nets.map fun s => (db.net s).netof)) :
    (unameitInetCheckNets exprEq info db order nets = .ok () ↔ NetsFit info db nets) ↔
      (∃ s ∈ nets, ∃ p, (db.net s).netof = some p ∧ ¬ ParentFits info db p s) ∨
        (∃ s ∈ nets, Refused db exprEq s ∧ ¬ ContentsFit db s) ∨
          ((∃ s ∈ nets, Refused db exprEq s ∧ ContentsFit db s) ↔
            ∃ s ∈ nets, ¬ Refused db exprEq s ∧ ¬ ContentsFit db s) := by
  rw [checkNets_ok_iff horder]
  unfold NetsFit
  by_cases hfit : ∀ s ∈ nets, ∀ p, (db.net s).netof = some p → ParentFits info db p s
  · have hno : ¬ ∃ s ∈ nets, ∃ p, (db.net s).netof = some p ∧ ¬ ParentFits info db p s := by
      rintro ⟨s, hs, p, hp, h⟩
      exact h (hfit s hs p hp)
    rw [and_iff_right hfit, and_iff_right hfit, or_iff_right hno, forall_iff_forall_iff]
    simp only [not_not]
  · refine iff_of_true (iff_of_false (fun h => hfit h.1) fun h => hfit h.1) (.inl ?_)
    simpa using hfit

/-! ## A net with a node -/

def lowerHalf (node subnet : Option DbObject) : Db where
  net o :=
    { netof := if o = 0 then none else some 0
      netStart := ['0', '0']
      netEnd := if o = 0 then ['f', 'f'] else ['7', 'f']
      netBits := if o = 0 then 0 else 1
      netMask := if o = 0 then ['0', '0'] else ['8', '0']
      netType := if o = 0 then .varying else .fixed }
  range _ :=
    { netof := 0
      rangeStart := []
      rangeEnd := []
      rangeType := .static
      rangeDevices := [] }
  node _ := { netof := 1, address := ['0', '1'] }
  cls _ := []
  owner _ := none
  depth _ := 0
  depth_lt := @Db.depth_lt_of_no_owner
  netRanges _ := []
  netAnode o := if o = 1 then node else none
  netAsubnet o := if o = 1 then subnet else none

lemma netsFit_lowerHalf {node : Option DbObject} :
    NetsFit unreserved (lowerHalf node none) [1] := by
  constructor
  · intro s hs p hp
    obtain rfl : s = 1 := by simpa using hs
    cases hp
    exact ⟨.inl (by simp [lowerHalf]), by simp [lowerHalf], by simp [unreserved],
      by simp [unreserved]⟩
  · intro s hs
    obtain rfl : s = 1 := by simpa using hs
    rfl

/-- A net that is not subnetted is refused for its node, and accepted with a subnet. -/
theorem checkNets_refuses_node :
    unameitInetCheckNets (fun bits text => (toString bits).toList = text) unreserved
          (lowerHalf (some 2) none) [some 0] [1] =
        .error (.einetSubnetted (some 2) .nodeNetof 1) ∧
      NetsFit unreserved (lowerHalf (some 2) none) [1] ∧
      unameitInetCheckNets (fun bits text => (toString bits).toList = text) unreserved
          (lowerHalf none (some 2)) [some 0] [1] = .ok () ∧
      ¬ NetsFit unreserved (lowerHalf none (some 2)) [1] := by
  refine ⟨by decide, netsFit_lowerHalf, by decide, ?_⟩
  rintro ⟨-, hcontents⟩
  have hfit := hcontents 1 List.mem_cons_self
  cases hfit

/-- Without node and subnet the net passes, and keeps the rules. -/
theorem checkNets_exact_lowerHalf :
    unameitInetCheckNets (fun _ _ => false) unreserved (lowerHalf none none) [some 0] [1] = .ok () ↔
      NetsFit unreserved (lowerHalf none none) [1] := by
  refine (checkNets_exact_iff (fun _ _ => false) unreserved (lowerHalf none none) [some 0] [1]
    ⟨by decide, fun o => by simp [lowerHalf]⟩).2 (.inr (.inr ?_))
  have hrefused : ¬ Refused (lowerHalf none none) (fun _ _ => false) 1 := by
    simp [Refused, lowerHalf]
  have hfit : ContentsFit (lowerHalf none none) 1 := (netsFit_lowerHalf).2 1 List.mem_cons_self
  simp [hrefused, hfit]

end NetCheck
end Unameit
