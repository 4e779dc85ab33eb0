import Mathlib.Data.List.Nodup
import Mathlib.Logic.Function.Basic

/-!
# Queue — doubly-linked queues that hang off anchors

Every anchor has one queue of nodes for each kind.  The anchor points at the first node, every node
points at the next one, and back at the one before it; the first node points back at the anchor
itself.  All queues share one store of nodes, and a node is in at most one of them.

`Links.Holds` compares such a store with the lists it stands for.  The two edits, at the head of a
queue and in the middle of it, each have one lemma that says what they do to these lists.
-/

namespace Unameit

open Option List

/-- The pointers of all queues: the head of each, and `next` and `prev` of each node. -/
structure Links (A K N : Type*) where
  head : A → K → Option N
  next : N → Option N
  prev : N → Option (A ⊕ N)

namespace Links

variable {A K N : Type*}

/-- From `p`, whose successor is `s`, the pointers run through exactly the nodes `l`, forward and
back. -/
def Chain (q : Links A K N) : A ⊕ N → Option N → List N → Prop
  | _, s, [] => s = none
  | p, s, n :: l => s = some n ∧ q.prev n = some p ∧ q.Chain (.inr n) (q.next n) l

/-- The queues are the lists `line`, and `place` says in which queue a node is, if in any. -/
structure Holds (q : Links A K N) (place : N → Option (A × K)) (line : A → K → List N) : Prop where
  chain : ∀ a k, q.Chain (.inl a) (q.head a k) (line a k)
  nodup : ∀ a k, (line a k).Nodup
  mem : ∀ {n a k}, n ∈ line a k ↔ place n = some (a, k)

/-! ## Edits -/

section Edits

def setHead [DecidableEq A] [DecidableEq K] (q : Links A K N) (a : A) (k : K) (s : Option N) :
    Links A K N :=
  { q with head := fun a' k' => if a' = a ∧ k' = k then s else q.head a' k' }

variable [DecidableEq N]

def setNext (q : Links A K N) (n : N) (s : Option N) : Links A K N :=
  { q with next := Function.update q.next n s }

def setPrev (q : Links A K N) (n : N) (p : Option (A ⊕ N)) : Links A K N :=
  { q with prev := Function.update q.prev n p }

def setPrevOf (q : Links A K N) (s : Option N) (p : Option (A ⊕ N)) : Links A K N :=
  match s with
  | some n => q.setPrev n p
  | none => q

def push [DecidableEq A] [DecidableEq K] (q : Links A K N) (a : A) (k : K) (n : N) :
    Links A K N :=
  (((q.setPrev n (some (.inl a))).setNext n (q.head a k)).setHead a k (some n)).setPrevOf
    (q.head a k) (some (.inr n))

/-- Take `n` out of a queue.  There is no result if `n` points back at nothing, or at the anchor of
another queue. -/
def unlink [DecidableEq A] [DecidableEq K] (q : Links A K N) (a : A) (k : K) (n : N) :
    Option (Links A K N) :=
  match q.prev n with
  | none => none
  | some (.inl a') =>
    if a' = a then some ((q.setHead a k (q.next n)).setPrevOf (q.next n) (some (.inl a)))
    else none
  | some (.inr m) => some ((q.setNext m (q.next n)).setPrevOf (q.next n) (some (.inr m)))

variable (q : Links A K N) (m : N) (s : Option N) (p : Option (A ⊕ N))

@[simp] lemma head_setPrevOf : (q.setPrevOf s p).head = q.head := by
  cases s <;> rfl

@[simp] lemma next_setPrevOf : (q.setPrevOf s p).next = q.next := by
  cases s <;> rfl

lemma prev_setPrevOf : (q.setPrevOf s p).prev m = if s = some m then p else q.prev m := by
  cases s with
  | none => simp [setPrevOf]
  | some n =>
    by_cases hm : m = n
    · subst hm
      simp [setPrevOf, setPrev]
    · simp [setPrevOf, setPrev, hm, Ne.symm hm]

end Edits

/-! ## Chains -/

variable {q q' : Links A K N} {p : A ⊕ N} {s : Option N} {l : List N} {n m k : N}

/-- A chain only depends on the pointers of its own nodes. -/
theorem Chain.congr (h : q.Chain p s l) (hprev : ∀ m ∈ l, q'.prev m = q.prev m)
    (hnext : ∀ m ∈ l, q'.next m = q.next m) : q'.Chain p s l := by
  induction l generalizing p s with
  | nil => exact h
  | cons n l ih =>
    rcases h with ⟨hs, hp, hrest⟩
    refine ⟨hs, (hprev n mem_cons_self).trans hp, ?_⟩
    rw [hnext n mem_cons_self]
    exact ih hrest (fun m hm => hprev m (mem_cons_of_mem _ hm))
      (fun m hm => hnext m (mem_cons_of_mem _ hm))

lemma Chain.start_mem (h : q.Chain p s l) (hs : s = some k) : k ∈ l := by
  cases l with
  | nil => exact absurd (h.symm.trans hs) (by simp)
  | cons n l =>
    have hnk : n = k := some.inj (h.1.symm.trans hs)
    exact hnk ▸ mem_cons_self

lemma Chain.next_mem (h : q.Chain p s l) (hn : n ∈ l) (hk : q.next n = some k) : k ∈ l := by
  induction l generalizing p s with
  | nil => cases hn
  | cons m l ih =>
    rcases h with ⟨_, _, hrest⟩
    rcases mem_cons.1 hn with rfl | hn
    · exact mem_cons_of_mem _ (hrest.start_mem hk)
    · exact mem_cons_of_mem _ (ih hrest hn)

/-- A node of the chain is the first one, or points back at another node of it. -/
theorem Chain.prev_cases (h : q.Chain p s l) (hn : n ∈ l) :
    (s = some n ∧ q.prev n = some p) ∨ ∃ m ∈ l, q.prev n = some (.inr m) := by
  induction l generalizing p s with
  | nil => cases hn
  | cons m l ih =>
    rcases h with ⟨hs, hp, hrest⟩
    rcases mem_cons.1 hn with rfl | hn
    · exact .inl ⟨hs, hp⟩
    · rcases ih hrest hn with ⟨_, hprev⟩ | ⟨j, hj, hprev⟩
      · exact .inr ⟨m, mem_cons_self, hprev⟩
      · exact .inr ⟨j, mem_cons_of_mem _ hj, hprev⟩

/-- Joining the neighbours of one node takes exactly that node out of the chain. -/
theorem Chain.erase [DecidableEq A] [DecidableEq N] (h : q.Chain p s l) (hnodup : l.Nodup)
    (hfresh : ∀ m ∈ l, p ≠ .inr m) (hn : n ∈ l)
    (hnext : ∀ m, q'.next m = if q.prev n = some (.inr m) then q.next n else q.next m)
    (hprev : ∀ m, q'.prev m = if q.next n = some m then q.prev n else q.prev m) :
    q'.Chain p (if s = some n then q.next n else s) (l.erase n) := by
  induction l generalizing p s with
  | nil => cases hn
  | cons m l ih =>
    rcases h with ⟨rfl, hp, hrest⟩
    rcases nodup_cons.1 hnodup with ⟨hm, hl⟩
    by_cases hmn : m = n
    · -- `n` is the first node: its successor now points back at `p`.
      subst hmn
      have hkeep : ∀ j ∈ l, q'.next j = q.next j := by
        intro j hj
        have hj' : q.prev m ≠ some (.inr j) := by
          rw [hp]
          exact fun he => hfresh j (mem_cons_of_mem _ hj) (some.inj he)
        rw [hnext, if_neg hj']
      rw [if_pos rfl, erase_cons_head]
      cases l with
      | nil => exact hrest
      | cons j l =>
        rcases hrest with ⟨hs, _, hrest⟩
        refine ⟨hs, ?_, ?_⟩
        · rw [hprev, if_pos hs, hp]
        · rw [hkeep j mem_cons_self]
          refine hrest.congr ?_ (fun i hi => hkeep i (mem_cons_of_mem _ hi))
          intro i hi
          have hi' : q.next m ≠ some i := by
            rw [hs]
            rintro he
            exact (nodup_cons.1 hl).1 (some.inj he ▸ hi)
          rw [hprev, if_neg hi']
    · -- `n` is further on: `m` stays, and the tail is handled by induction.
      have hn' : n ∈ l := (mem_cons.1 hn).resolve_left (Ne.symm hmn)
      have hsucc : q.next n ≠ some m := fun he => hm (hrest.next_mem hn' he)
      have hiff : q.prev n = some (.inr m) ↔ q.next m = some n := by
        constructor
        · intro he
          rcases hrest.prev_cases hn' with ⟨hs, _⟩ | ⟨j, hj, hprev'⟩
          · exact hs
          · have hjm : j = m := Sum.inr.inj (some.inj (hprev'.symm.trans he))
            exact absurd (hjm ▸ hj) hm
        · intro he
          rcases hrest.prev_cases hn' with ⟨_, hprev'⟩ | ⟨j, hj, hprev'⟩
          · exact hprev'
          · cases l with
            | nil => cases hn'
            | cons i l =>
              have hin : i = n := some.inj (hrest.1.symm.trans he)
              exact hin ▸ hrest.2.1
      have hfresh' : ∀ j ∈ l, (Sum.inr m : A ⊕ N) ≠ .inr j := by
        intro j hj he
        exact hm (Sum.inr.inj he ▸ hj)
      have htail := ih hrest hl hfresh' hn'
      rw [if_neg (fun he => hmn (some.inj he)), erase_cons_tail (by simpa using hmn)]
      refine ⟨rfl, ?_, ?_⟩
      · rw [hprev, if_neg hsucc, hp]
      · have hstep : q'.next m = if q.next m = some n then q.next n else q.next m := by
          rw [hnext]
          simp only [hiff]
        rw [hstep]
        exact htail

/-! ## The lists a store of queues stands for -/

namespace Holds

variable {place place' : N → Option (A × K)} {line : A → K → List N} {a : A} {c : K}

lemma congr (h : q.Holds place line) (hplace : ∀ n, place' n = place n) : q.Holds place' line :=
  { chain := h.chain
    nodup := h.nodup
    mem := by
      intro n a k
      rw [hplace]
      exact h.mem }

lemma empty : (Links.mk (fun _ _ => none) (fun _ => none) fun _ => none : Links A K N).Holds
    (fun _ => none) fun _ _ => [] :=
  { chain := fun _ _ => rfl
    nodup := fun _ _ => nodup_nil
    mem := by simp }

lemma head_eq_none_iff (h : q.Holds place line) :
    q.head a c = none ↔ ∀ n, place n ≠ some (a, c) := by
  have hchain := h.chain a c
  constructor
  · intro hnone n hn
    have hmem : n ∈ line a c := h.mem.2 hn
    cases hline : line a c with
    | nil => rw [hline] at hmem; cases hmem
    | cons m l =>
      rw [hline, hnone] at hchain
      exact absurd hchain.1 (by simp)
  · intro hnone
    cases hhead : q.head a c with
    | none => rfl
    | some n => exact absurd (h.mem.1 (hchain.start_mem hhead)) (hnone n)

lemma place_of_head (h : q.Holds place line) (hn : q.head a c = some n) : place n = some (a, c) :=
  h.mem.1 ((h.chain a c).start_mem hn)

variable [DecidableEq A] [DecidableEq K] [DecidableEq N]

/-- A node that is in no queue becomes the head of one. -/
theorem push (h : q.Holds place line) (hn : place n = none) :
    (q.push a c n).Holds (Function.update place n (some (a, c)))
      (fun a' c' => if a' = a ∧ c' = c then n :: line a c else line a' c') := by
  have hfresh : ∀ a' c', n ∉ line a' c' := by
    intro a' c' hmem
    rw [h.mem, hn] at hmem
    cases hmem
  have hnext : ∀ m, m ≠ n → (q.push a c n).next m = q.next m := by
    intro m hm
    simp [Links.push, setHead, setNext, setPrev, hm]
  have hprev : ∀ m, m ≠ n → q.head a c ≠ some m → (q.push a c n).prev m = q.prev m := by
    intro m hm hhead
    rw [Links.push, prev_setPrevOf, if_neg hhead]
    simp [setHead, setNext, setPrev, hm]
  have hself : q.head a c ≠ some n := fun he => hfresh a c ((h.chain a c).start_mem he)
  refine
    { chain := ?_
      nodup := ?_
      mem := ?_ }
  · intro a' c'
    by_cases hac : a' = a ∧ c' = c
    · rcases hac with ⟨rfl, rfl⟩
      have hchain := h.chain a' c'
      simp only [and_self, if_true]
      refine ⟨by simp [Links.push, setHead], ?_, ?_⟩
      · rw [Links.push, prev_setPrevOf, if_neg hself]
        simp [setHead, setNext, setPrev]
      · have hstart : (q.push a' c' n).next n = q.head a' c' := by
          simp [Links.push, setHead, setNext, setPrev]
        rw [hstart]
        cases hline : line a' c' with
        | nil =>
          rw [hline] at hchain
          exact hchain
        | cons m l =>
          -- The old head points back at the new one; the rest of the queue is as before.
          have hnotin := hfresh a' c'
          have hnodup := h.nodup a' c'
          rw [hline] at hchain hnotin hnodup
          rcases hchain with ⟨hs, _, hrest⟩
          have hmn : m ≠ n := fun he => hnotin (he ▸ mem_cons_self)
          refine ⟨hs, ?_, ?_⟩
          · rw [Links.push, prev_setPrevOf, if_pos hs]
          · rw [hnext m hmn]
            refine hrest.congr ?_ ?_
            · intro j hj
              refine hprev j (fun he => hnotin (he ▸ mem_cons_of_mem _ hj)) ?_
              rw [hs]
              intro he
              exact (nodup_cons.1 hnodup).1 (some.inj he ▸ hj)
            · exact fun j hj => hnext j fun he => hnotin (he ▸ mem_cons_of_mem _ hj)
    · have hhead : (q.push a c n).head a' c' = q.head a' c' := by
        simp [Links.push, setHead, setNext, setPrev, hac]
      rw [if_neg hac, hhead]
      refine (h.chain a' c').congr ?_ ?_
      · intro m hm
        refine hprev m (fun he => hfresh a' c' (he ▸ hm)) ?_
        intro he
        have hplace := h.place_of_head he
        rw [h.mem.1 hm] at hplace
        exact hac (Prod.mk.inj (some.inj hplace))
      · exact fun m hm => hnext m fun he => hfresh a' c' (he ▸ hm)
  · intro a' c'
    split_ifs
    · exact nodup_cons.2 ⟨hfresh a c, h.nodup a c⟩
    · exact h.nodup a' c'
  · intro m a' c'
    by_cases hm : m = n
    · subst hm
      rw [Function.update_self]
      split_ifs with hac
      · simp [hac.1, hac.2]
      · refine iff_of_false (hfresh a' c') ?_
        intro he
        rcases Prod.mk.inj (some.inj he) with ⟨rfl, rfl⟩
        exact hac ⟨rfl, rfl⟩
    · rw [Function.update_of_ne hm]
      split_ifs with hac
      · rw [mem_cons, h.mem, hac.1, hac.2]
        exact or_iff_right hm
      · exact h.mem

/-- A node can be taken out of the queue it is in, and only that node leaves it. -/
theorem unlink (h : q.Holds place line) (hn : place n = some (a, c)) :
    ∃ q', q.unlink a c n = some q' ∧ q'.Holds (Function.update place n none)
      (fun a' c' => if a' = a ∧ c' = c then (line a c).erase n else line a' c') := by
  have hmem : n ∈ line a c := h.mem.2 hn
  have hchain := h.chain a c
  have hcases := hchain.prev_cases hmem
  -- Whatever precedes `n`, the result is described by the same three equations.
  obtain ⟨q', hq', hhead, hnext, hprev⟩ : ∃ q', q.unlink a c n = some q' ∧
      (∀ a' c', q'.head a' c' =
        if a' = a ∧ c' = c then (if q.head a c = some n then q.next n else q.head a c)
        else q.head a' c') ∧
      (∀ m, q'.next m = if q.prev n = some (.inr m) then q.next n else q.next m) ∧
      ∀ m, q'.prev m = if q.next n = some m then q.prev n else q.prev m := by
    rcases hcases with ⟨hs, hp⟩ | ⟨j, hj, hp⟩
    · refine ⟨(q.setHead a c (q.next n)).setPrevOf (q.next n) (some (.inl a)), ?_, ?_, ?_, ?_⟩
      · simp [Links.unlink, hp]
      · intro a' c'
        simp [setHead, hs]
      · intro m
        simp [setHead, hp]
      · intro m
        rw [prev_setPrevOf, hp]
        rfl
    · have hs : q.head a c ≠ some n := by
        intro hs
        cases hline : line a c with
        | nil => rw [hline] at hmem; cases hmem
        | cons i l =>
          rw [hline] at hchain
          rcases hchain with ⟨hi, hpi, _⟩
          have hin : i = n := some.inj (hi.symm.trans hs)
          rw [hin, hp] at hpi
          cases hpi
      refine ⟨(q.setNext j (q.next n)).setPrevOf (q.next n) (some (.inr j)), ?_, ?_, ?_, ?_⟩
      · simp [Links.unlink, hp]
      · intro a' c'
        by_cases hac : a' = a ∧ c' = c
        · simp [setNext, hac, hs]
        · simp [setNext, hac]
      · intro m
        by_cases hm : m = j
        · subst hm
          simp [setNext, hp]
        · simp [setNext, hp, hm, Ne.symm hm]
      · intro m
        rw [prev_setPrevOf, hp]
        rfl
  refine ⟨q', hq', ?_⟩
  refine
    { chain := ?_
      nodup := ?_
      mem := ?_ }
  · intro a' c'
    by_cases hac : a' = a ∧ c' = c
    · rcases hac with ⟨rfl, rfl⟩
      have hstart := hhead a' c'
      simp only [and_self, if_true] at hstart ⊢
      rw [hstart]
      exact hchain.erase (h.nodup a' c') (fun m _ he => by cases he) hmem hnext hprev
    · -- Another queue has neither the node before `n` nor the one after it.
      have hother : ∀ m ∈ line a' c', m ∉ line a c := by
        intro m hm hm'
        have he := (h.mem.1 hm).symm.trans (h.mem.1 hm')
        exact hac (Prod.mk.inj (some.inj he))
      rw [if_neg hac, hhead, if_neg hac]
      refine (h.chain a' c').congr ?_ ?_
      · intro m hm
        rw [hprev, if_neg fun he => hother m hm (hchain.next_mem hmem he)]
      · intro m hm
        have hm' : q.prev n ≠ some (.inr m) := by
          intro he
          rcases hcases with ⟨_, hp⟩ | ⟨j, hj, hp⟩
          · rw [hp] at he
            cases he
          · rw [hp] at he
            exact hother m hm (Sum.inr.inj (some.inj he) ▸ hj)
        rw [hnext, if_neg hm']
  · intro a' c'
    split_ifs
    · exact (h.nodup a c).erase n
    · exact h.nodup a' c'
  · intro m a' c'
    by_cases hm : m = n
    · subst hm
      refine iff_of_false ?_ (by simp)
      split_ifs with hac
      · exact (h.nodup a c).not_mem_erase
      · intro hm'
        have he := hn.symm.trans (h.mem.1 hm')
        rcases Prod.mk.inj (some.inj he) with ⟨rfl, rfl⟩
        exact hac ⟨rfl, rfl⟩
    · rw [Function.update_of_ne hm]
      split_ifs with hac
      · rw [mem_erase_of_ne hm, h.mem, hac.1, hac.2]
      · exact h.mem

end Holds
end Links
end Unameit
