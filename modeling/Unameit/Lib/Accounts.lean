import Mathlib.Data.Set.Card
import Mathlib.Data.List.InsertIdx
import Mathlib.Order.Basic

/-!
# Accounts — counting and listing the members of accounts

Every item belongs to at most one account.  A `Tally` keeps, for each account, the number of its
members and one of them as a representative; a roster keeps the list of its members.  Both are
maintained one transfer at a time.  Counts and members are exact after every transfer.  The
representative is a member as long as it did not leave on its own (`Tally.Steady`), and a member
lands in order on a roster only if it is the largest or has an equal (`FitInOrder`).
-/

namespace Unameit

open Function (update update_self update_of_ne update_eq_self)
open List

variable {ι κ : Type*}

/-- The items of `S` that belong to the account `c`. -/
def roll (S : Set ι) (member : ι → Option κ) (c : κ) : Set ι :=
  {x | x ∈ S ∧ member x = some c}

variable {S : Set ι} {x : ι} {b : κ} {old new : Option κ} {rep : Option ι}

lemma roll_update [DecidableEq ι] [DecidableEq κ] {member : ι → Option κ} (hx : x ∈ S)
    (new : Option κ) (c : κ) : roll S (update member x new) c =
      if new = some c then insert x (roll S member c) else roll S member c \ {x} := by
  ext y
  by_cases hyx : y = x
  · subst hyx
    by_cases hnew : new = some c
    · simp [roll, hnew, hx]
    · simp [roll, hnew]
  · by_cases hnew : new = some c
    · simp [roll, hnew, hyx]
    · simp [roll, hnew, hyx]

lemma roll_finite (hS : S.Finite) (member : ι → Option κ) (c : κ) : (roll S member c).Finite :=
  hS.subset fun _ hx => hx.1

/-! ## Tallies -/

structure Tally (ι κ : Type*) where
  count : κ → ℤ
  any : κ → Option ι

namespace Tally

section Transfer

variable [DecidableEq κ]

def leave (t : Tally ι κ) (c : κ) : Tally ι κ where
  count := update t.count c (t.count c - 1)
  any := if t.count c - 1 = 0 then update t.any c none else t.any

def join (t : Tally ι κ) (c : κ) (x : ι) : Tally ι κ where
  count := update t.count c (t.count c + 1)
  any := if t.count c + 1 = 1 then update t.any c (some x) else t.any

def transfer (t : Tally ι κ) (old new : Option κ) (x : ι) : Tally ι κ :=
  if old = new then t
  else
    let left :=
      match old with
      | none => t
      | some c => t.leave c
    match new with
    | none => left
    | some c => left.join c x

variable {c : κ}

lemma transfer_self (t : Tally ι κ) (old : Option κ) (x : ι) : t.transfer old old x = t :=
  if_pos rfl

lemma leave_of_ne (t : Tally ι κ) (h : c ≠ b) :
    (t.leave b).count c = t.count c ∧ (t.leave b).any c = t.any c := by
  refine ⟨update_of_ne h _ _, ?_⟩
  unfold leave
  split
  · exact update_of_ne h _ _
  · rfl

lemma leave_self (t : Tally ι κ) (c : κ) :
    (t.leave c).count c = t.count c - 1 ∧
      (t.leave c).any c = if t.count c - 1 = 0 then none else t.any c := by
  refine ⟨update_self _ _ _, ?_⟩
  unfold leave
  split
  · exact update_self _ _ _
  · rfl

lemma join_of_ne (t : Tally ι κ) (x : ι) (h : c ≠ b) :
    (t.join b x).count c = t.count c ∧ (t.join b x).any c = t.any c := by
  refine ⟨update_of_ne h _ _, ?_⟩
  unfold join
  split
  · exact update_of_ne h _ _
  · rfl

lemma join_self (t : Tally ι κ) (c : κ) (x : ι) :
    (t.join c x).count c = t.count c + 1 ∧
      (t.join c x).any c = if t.count c + 1 = 1 then some x else t.any c := by
  refine ⟨update_self _ _ _, ?_⟩
  unfold join
  split
  · exact update_self _ _ _
  · rfl

lemma transfer_of_ne (t : Tally ι κ) (x : ι) (hold : old ≠ some c) (hnew : new ≠ some c) :
    (t.transfer old new x).count c = t.count c ∧ (t.transfer old new x).any c = t.any c := by
  unfold transfer
  split
  · exact ⟨rfl, rfl⟩
  · cases old with
    | none =>
      cases new with
      | none => exact ⟨rfl, rfl⟩
      | some d => exact t.join_of_ne x fun hc => hnew (hc ▸ rfl)
    | some b =>
      have hleft := t.leave_of_ne (c := c) (b := b) fun hc => hold (hc ▸ rfl)
      cases new with
      | none => exact hleft
      | some d =>
        have hjoin := (t.leave b).join_of_ne (c := c) (b := d) x fun hc => hnew (hc ▸ rfl)
        exact ⟨hjoin.1.trans hleft.1, hjoin.2.trans hleft.2⟩

lemma transfer_old (t : Tally ι κ) (x : ι) (hne : new ≠ some c) :
    (t.transfer (some c) new x).count c = t.count c - 1 ∧
      (t.transfer (some c) new x).any c = if t.count c - 1 = 0 then none else t.any c := by
  unfold transfer
  rw [if_neg (Ne.symm hne)]
  have hleft := t.leave_self c
  cases new with
  | none => exact hleft
  | some d =>
    have hjoin := (t.leave c).join_of_ne (c := c) (b := d) x fun hc => hne (hc ▸ rfl)
    exact ⟨hjoin.1.trans hleft.1, hjoin.2.trans hleft.2⟩

lemma transfer_new (t : Tally ι κ) (x : ι) (hne : old ≠ some c) :
    (t.transfer old (some c) x).count c = t.count c + 1 ∧
      (t.transfer old (some c) x).any c = if t.count c + 1 = 1 then some x else t.any c := by
  unfold transfer
  rw [if_neg hne]
  cases old with
  | none => exact t.join_self c x
  | some b =>
    have hleft := t.leave_of_ne (c := c) (b := b) fun hc => hne (hc ▸ rfl)
    have hjoin := (t.leave b).join_self c x
    rw [hleft.1, hleft.2] at hjoin
    exact hjoin

end Transfer

variable {t : Tally ι κ} {S : Set ι} {member : ι → Option κ} {x : ι} {c : κ}

def Exact (t : Tally ι κ) (S : Set ι) (member : ι → Option κ) : Prop :=
  ∀ c, t.count c = ((roll S member c).ncard : ℤ)

lemma Exact.transfer [DecidableEq ι] [DecidableEq κ] (h : t.Exact S member) (hS : S.Finite)
    (hx : x ∈ S) (new : Option κ) :
    (t.transfer (member x) new x).Exact S (update member x new) := by
  intro c
  rw [roll_update hx]
  by_cases hsame : member x = new
  · subst hsame
    rw [transfer_self, h c]
    by_cases hc : member x = some c
    · rw [if_pos hc, Set.insert_eq_of_mem (show x ∈ roll S member c from ⟨hx, hc⟩)]
    · rw [if_neg hc, Set.sdiff_singleton_eq_self fun hmem => hc hmem.2]
  · by_cases hnew : new = some c
    · -- The account that gains the item did not have it.
      subst hnew
      have hout : x ∉ roll S member c := fun hmem => hsame hmem.2
      rw [if_pos rfl, (t.transfer_new x hsame).1, h c,
        Set.ncard_insert_of_notMem hout (roll_finite hS member c)]
      rfl
    · rw [if_neg hnew]
      by_cases hold : member x = some c
      · have hin : x ∈ roll S member c := ⟨hx, hold⟩
        have hpos : 0 < (roll S member c).ncard :=
          (Set.ncard_pos (roll_finite hS member c)).2 ⟨x, hin⟩
        rw [hold, (t.transfer_old x hnew).1, h c, Set.ncard_sdiff_singleton_of_mem hin]
        omega
      · rw [(t.transfer_of_ne x hold hnew).1, h c,
          Set.sdiff_singleton_eq_self fun hmem => hold hmem.2]

/-- The representative of an account is one of its members, and there is none when it has no
members. -/
def Vouched (t : Tally ι κ) (S : Set ι) (member : ι → Option κ) (c : κ) : Prop :=
  (t.count c = 0 → t.any c = none) ∧ (t.count c ≠ 0 → ∃ x ∈ roll S member c, t.any c = some x)

/-- The representative of an account is what it was, unless all members have left. -/
def Steady (t : Tally ι κ) (c : κ) (rep : Option ι) : Prop :=
  (t.count c = 0 → t.any c = none) ∧ (t.count c ≠ 0 → t.any c = rep)

lemma Vouched.steady (h : t.Vouched S member c) : t.Steady c (t.any c) :=
  ⟨h.1, fun _ => rfl⟩

lemma Steady.transfer [DecidableEq κ] (h : t.Steady c rep) (hexact : t.Exact S member)
    (hS : S.Finite) (hx : x ∈ S) (hnew : new ≠ some c) :
    (t.transfer (member x) new x).Steady c rep := by
  by_cases hold : member x = some c
  · have hpos : 0 < (roll S member c).ncard :=
      (Set.ncard_pos (roll_finite hS member c)).2 ⟨x, hx, hold⟩
    have hcount := hexact c
    rcases t.transfer_old x hnew with ⟨hc, hany⟩
    rw [hold]
    refine ⟨fun hzero => ?_, fun hpos' => ?_⟩
    · rw [hc] at hzero
      rw [hany, if_pos hzero]
    · rw [hc] at hpos'
      rw [hany, if_neg hpos']
      exact h.2 (by omega)
  · rcases t.transfer_of_ne x hold hnew with ⟨hc, hany⟩
    rw [Steady, hc, hany]
    exact h

/-- An account that only gains members keeps a valid representative. -/
theorem Vouched.transfer_new [DecidableEq ι] [DecidableEq κ] (h : t.Vouched S member c)
    (hexact : t.Exact S member) (hx : x ∈ S) :
    (t.transfer (member x) (some c) x).Vouched S (update member x (some c)) c := by
  by_cases hsame : member x = some c
  · rw [hsame, transfer_self, ← hsame, update_eq_self]
    exact h
  · rcases t.transfer_new x hsame with ⟨hc, hany⟩
    have hcount := hexact c
    refine ⟨fun hzero => ?_, fun _ => ?_⟩
    · omega
    · rw [hany]
      by_cases hfirst : t.count c + 1 = 1
      · exact ⟨x, ⟨hx, update_self _ _ _⟩, by rw [if_pos hfirst]⟩
      · rcases h.2 (by omega) with ⟨y, hy, hrep⟩
        refine ⟨y, ?_, by rw [if_neg hfirst, hrep]⟩
        rw [roll_update hx, if_pos rfl]
        exact Set.mem_insert_of_mem x hy

/-- A steady account has a valid representative when that is still a member. -/
theorem Steady.vouched (h : t.Steady c rep)
    (hrep : t.count c ≠ 0 → ∃ x ∈ roll S member c, rep = some x) : t.Vouched S member c := by
  refine ⟨h.1, fun hc => ?_⟩
  rw [h.2 hc]
  exact hrep hc

lemma Exact.exists_mem (h : t.Exact S member) (hc : t.count c ≠ 0) : ∃ x, x ∈ roll S member c := by
  refine Set.nonempty_of_ncard_ne_zero fun hzero => hc ?_
  rw [h c, hzero]
  rfl

lemma Exact.count_pos (h : t.Exact S member) (hS : S.Finite) (hx : x ∈ roll S member c) :
    0 < t.count c := by
  have hpos : 0 < (roll S member c).ncard := (Set.ncard_pos (roll_finite hS member c)).2 ⟨x, hx⟩
  rw [h c]
  exact_mod_cast hpos

/-- One transfer keeps all representatives valid, unless the representative of an account leaves
it on its own. -/
theorem Vouched.transfer [DecidableEq ι] [DecidableEq κ] (h : ∀ c, t.Vouched S member c)
    (hexact : t.Exact S member) (hS : S.Finite) (hx : x ∈ S)
    (hkeep : ∀ c, member x = some c → new ≠ some c → t.any c = some x →
      ∀ y ∈ roll S member c, y = x) (c : κ) :
    (t.transfer (member x) new x).Vouched S (update member x new) c := by
  by_cases hnew : new = some c
  · rw [hnew]
    exact (h c).transfer_new hexact hx
  · refine ((h c).steady.transfer hexact hS hx hnew).vouched fun hcount => ?_
    rcases (hexact.transfer hS hx new).exists_mem hcount with ⟨y, hy⟩
    rw [roll_update hx, if_neg hnew] at hy ⊢
    rcases (h c).2 (ne_of_gt (hexact.count_pos hS hy.1)) with ⟨z, hz, hany⟩
    refine ⟨z, ⟨hz, ?_⟩, hany⟩
    rintro rfl
    exact hy.2 (hkeep c hz.2 hnew hany y hy.1)

end Tally

/-! ## Rosters -/

section Rosters

variable [DecidableEq ι] [DecidableEq κ]

def rosterMove (L : κ → List ι) (old new : Option κ) (x : ι) (position : List ι → ℕ) :
    κ → List ι :=
  if old = new then L
  else
    let dropped : κ → List ι :=
      match old with
      | none => L
      | some b => update L b ((L b).erase x)
    match new with
    | none => dropped
    | some b => update dropped b ((dropped b).insertIdx (position (dropped b)) x)

/-- Every list has the members of its account, each once. -/
def Rosters (L : κ → List ι) (S : Set ι) (member : ι → Option κ) : Prop :=
  ∀ c, (L c).Nodup ∧ ∀ x, x ∈ L c ↔ x ∈ roll S member c

variable {L : κ → List ι} {S : Set ι} {member : ι → Option κ} {x : ι} {c : κ}

lemma rosterMove_self (L : κ → List ι) (old : Option κ) (x : ι) (position : List ι → ℕ) :
    rosterMove L old old x position = L :=
  if_pos rfl

lemma rosterMove_of_ne (hne : old ≠ new) (hnew : new ≠ some c) (position : List ι → ℕ) :
    rosterMove L old new x position c =
      if old = some c then (L c).erase x else L c := by
  unfold rosterMove
  rw [if_neg hne]
  have hdrop : (match old with
      | none => L
      | some b => update L b ((L b).erase x)) c =
      if old = some c then (L c).erase x else L c := by
    cases old with
    | none => rfl
    | some b =>
      by_cases hb : b = c
      · subst hb
        simp
      · have hcb : c ≠ b := fun h => hb h.symm
        simp [hb, update_of_ne hcb]
  cases new with
  | none => exact hdrop
  | some d =>
    have hcd : c ≠ d := fun h => hnew (h ▸ rfl)
    simp only [update_of_ne hcd]
    exact hdrop

lemma rosterMove_new (hne : old ≠ some c) (position : List ι → ℕ) :
    rosterMove L old (some c) x position c = (L c).insertIdx (position (L c)) x := by
  unfold rosterMove
  rw [if_neg hne]
  simp only [update_self]
  cases old with
  | none => rfl
  | some b =>
    have hcb : c ≠ b := fun h => hne (h ▸ rfl)
    simp only [update_of_ne hcb]

lemma Rosters.move (h : Rosters L S member) (hx : x ∈ S) (new : Option κ)
    {position : List ι → ℕ} (hpos : ∀ l, position l ≤ l.length) :
    Rosters (rosterMove L (member x) new x position) S (update member x new) := by
  intro c
  by_cases hsame : member x = new
  · rw [← hsame, rosterMove_self, update_eq_self]
    exact h c
  · rw [roll_update hx]
    by_cases hnew : new = some c
    · subst hnew
      have hout : x ∉ L c := fun hmem => hsame (((h c).2 x).1 hmem).2
      rw [rosterMove_new hsame, if_pos rfl]
      refine ⟨(perm_insertIdx x _ (hpos _)).nodup_iff.2 (nodup_cons.2 ⟨hout, (h c).1⟩),
        fun y => ?_⟩
      rw [mem_insertIdx (hpos _), Set.mem_insert_iff, (h c).2]
    · rw [rosterMove_of_ne hsame hnew]
      split
      · refine ⟨(h c).1.erase x, fun y => ?_⟩
        rw [(h c).1.mem_erase_iff, (h c).2]
        exact And.comm
      · rename_i hold
        rw [Set.sdiff_singleton_eq_self fun hmem => hold hmem.2]
        exact h c

end Rosters

/-! ## Ordered rosters -/

/-- The position after the first entry that does not come before the new one. -/
def position (before : ι → Bool) : List ι → ℕ
  | [] => 0
  | y :: l => if before y then position before l + 1 else 1

lemma position_le_length (before : ι → Bool) (l : List ι) : position before l ≤ l.length := by
  induction l with
  | nil => exact le_refl _
  | cons y l ih =>
    rw [position, length_cons]
    split <;> omega

/-- The new entry lands in order when it is larger than all others or equal to one of them. -/
theorem pairwise_insertIdx_position {K : Type*} [LinearOrder K] (key : ι → K) (x : ι) {l : List ι}
    (hl : l.Pairwise fun y z => key y ≤ key z)
    (hfit : (∀ y ∈ l, key y < key x) ∨ ∃ y ∈ l, key y = key x) :
    (l.insertIdx (position (fun y => decide (key y < key x)) l) x).Pairwise
      fun y z => key y ≤ key z := by
  induction l with
  | nil => simp [position]
  | cons y l ih =>
    rw [pairwise_cons] at hl
    rw [position]
    by_cases hlt : key y < key x
    · -- The new entry goes further down.
      have hfit' : (∀ z ∈ l, key z < key x) ∨ ∃ z ∈ l, key z = key x := by
        rcases hfit with hall | ⟨z, hz, heq⟩
        · exact .inl fun z hz => hall z (mem_cons_of_mem y hz)
        · rcases mem_cons.1 hz with rfl | hz
          · exact absurd heq (ne_of_lt hlt)
          · exact .inr ⟨z, hz, heq⟩
      rw [if_pos (by simpa using hlt), insertIdx_succ_cons, pairwise_cons]
      refine ⟨fun z hz => ?_, ih hl.2 hfit'⟩
      rcases (mem_insertIdx (position_le_length _ l)).1 hz with rfl | hz
      · exact le_of_lt hlt
      · exact hl.1 z hz
    · have heq : key y = key x := by
        rcases hfit with hall | ⟨z, hz, heq⟩
        · exact absurd (hall y mem_cons_self) hlt
        · rcases mem_cons.1 hz with rfl | hz
          · exact heq
          · exact le_antisymm (heq ▸ hl.1 z hz) (le_of_not_gt hlt)
      rw [if_neg (by simpa using hlt), insertIdx_succ_cons, insertIdx_zero,
        pairwise_cons, pairwise_cons]
      refine ⟨fun z hz => ?_, fun z hz => ?_, hl.2⟩
      · rcases mem_cons.1 hz with rfl | hz
        · exact le_of_eq heq
        · exact hl.1 z hz
      · rw [← heq]
        exact hl.1 z hz

/-- Every key is larger than those before it and those in `keys`, or equal to one of them. -/
def FitInOrder {K : Type*} [LinearOrder K] : Set K → List K → Prop
  | _, [] => True
  | keys, k :: l => ((∀ k' ∈ keys, k' < k) ∨ k ∈ keys) ∧ FitInOrder (insert k keys) l

lemma FitInOrder.head {K : Type*} [LinearOrder K] {keys : Set K} {k : K} {l : List K}
    (h : FitInOrder keys (k :: l)) : FitInOrder keys [k] :=
  ⟨h.1, trivial⟩

/-- All lists stay in order when the new member fits in. -/
theorem pairwise_rosterMove {K : Type*} [LinearOrder K] [DecidableEq ι] [DecidableEq κ]
    {L : κ → List ι} {key : ι → K} (hord : ∀ c, (L c).Pairwise fun y z => key y ≤ key z)
    (hfit : ∀ c, new = some c → FitInOrder (key '' {y | y ∈ L c}) [key x]) (c : κ) :
    (rosterMove L old new x (position fun y => decide (key y < key x)) c).Pairwise
      fun y z => key y ≤ key z := by
  by_cases hsame : old = new
  · rw [hsame, rosterMove_self]
    exact hord c
  · by_cases hnew : new = some c
    · rw [hnew, rosterMove_new (hnew ▸ hsame)]
      refine pairwise_insertIdx_position key x (hord c) ?_
      rcases (hfit c hnew).1 with hlarge | ⟨y, hy, heq⟩
      · exact .inl fun y hy => hlarge (key y) ⟨y, hy, rfl⟩
      · exact .inr ⟨y, hy, heq⟩
    · rw [rosterMove_of_ne hsame hnew]
      split
      · exact (hord c).sublist erase_sublist
      · exact hord c

end Unameit
