import Mathlib.Data.List.Nodup
import Mathlib.Data.Nat.Basic

/-!
# Pool — objects that are recycled through a free list

Objects that are no longer needed go to the head of a free list, and new ones are taken from there
before any is created.  `Pool.Sound p live` says that the objects in use, given by `live`, are not
on the free list, and that no object is there twice.
-/

namespace Unameit

open List

structure Pool where
  free : List ℕ
  next : ℕ
  deriving DecidableEq, Repr

namespace Pool

def take (p : Pool) : ℕ × Pool :=
  match p.free with
  | o :: rest => (o, { p with free := rest })
  | [] => (p.next, { p with next := p.next + 1 })

def give (p : Pool) (o : ℕ) : Pool :=
  { p with free := o :: p.free }

/-- The objects in use and the objects on the free list are different and were all created. -/
structure Sound (p : Pool) (live : ℕ → Prop) : Prop where
  nodup : p.free.Nodup
  idle : ∀ {o}, o ∈ p.free → ¬ live o
  created : ∀ {o}, o ∈ p.free ∨ live o → o < p.next

variable {p : Pool} {live live' : ℕ → Prop} {o : ℕ}

namespace Sound

lemma congr (h : p.Sound live) (hiff : ∀ o, live' o ↔ live o) : p.Sound live' :=
  { nodup := h.nodup
    idle := fun ho hl => h.idle ho ((hiff _).1 hl)
    created := fun ho => h.created (ho.imp_right (hiff _).1) }

lemma empty : (Pool.mk [] 0).Sound fun _ => False :=
  { nodup := nodup_nil
    idle := fun ho _ => by cases ho
    created := fun ho => by
      rcases ho with ho | ho
      · cases ho
      · exact ho.elim }

lemma not_live_take (h : p.Sound live) : ¬ live p.take.1 := by
  unfold take
  split
  · rename_i o rest hfree
    exact h.idle (hfree ▸ mem_cons_self)
  · intro hl
    exact lt_irrefl _ (h.created (.inr hl))

lemma take (h : p.Sound live) : p.take.2.Sound fun o => o = p.take.1 ∨ live o := by
  unfold Pool.take
  split
  · rename_i o rest hfree
    have hnodup := h.nodup
    rw [hfree] at hnodup
    refine
      { nodup := hnodup.of_cons
        idle := ?_
        created := ?_ }
    · rintro x hx (rfl | hl)
      · exact (nodup_cons.1 hnodup).1 hx
      · exact h.idle (hfree ▸ mem_cons_of_mem _ hx) hl
    · rintro x (hx | rfl | hl)
      · exact h.created (.inl (hfree ▸ mem_cons_of_mem _ hx))
      · exact h.created (.inl (hfree ▸ mem_cons_self))
      · exact h.created (.inr hl)
  · rename_i hfree
    refine
      { nodup := h.nodup
        idle := ?_
        created := ?_ }
    · intro x hx
      have hx' : x ∈ p.free := hx
      rw [hfree] at hx'
      cases hx'
    · rintro x (hx | rfl | hl)
      · exact Nat.lt_succ_of_lt (h.created (.inl hx))
      · exact Nat.lt_succ_self _
      · exact Nat.lt_succ_of_lt (h.created (.inr hl))

lemma give (h : p.Sound live) (ho : live o) : (p.give o).Sound fun x => live x ∧ x ≠ o := by
  refine
    { nodup := nodup_cons.2 ⟨fun hf => h.idle hf ho, h.nodup⟩
      idle := ?_
      created := ?_ }
  · intro x hx hl
    rcases mem_cons.1 hx with rfl | hx
    · exact hl.2 rfl
    · exact h.idle hx hl.1
  · rintro x (hx | hl)
    · rcases mem_cons.1 hx with rfl | hx
      · exact h.created (.inr ho)
      · exact h.created (.inl hx)
    · exact h.created (.inr hl.1)

end Sound

/-- No object is lost: every object that was created is in use or on the free list. -/
def Full (p : Pool) (live : ℕ → Prop) : Prop :=
  ∀ o, o < p.next → o ∈ p.free ∨ live o

namespace Full

lemma congr (h : p.Full live) (hiff : ∀ o, live' o ↔ live o) : p.Full live' :=
  fun o ho => (h o ho).imp_right (hiff _).2

lemma empty : (Pool.mk [] 0).Full fun _ => False :=
  fun _ ho => absurd ho (Nat.not_lt_zero _)

lemma take (h : p.Full live) : p.take.2.Full fun o => o = p.take.1 ∨ live o := by
  unfold Pool.take
  split
  · rename_i o rest hfree
    intro x hx
    rcases h x hx with hx | hl
    · rw [hfree] at hx
      rcases mem_cons.1 hx with rfl | hx
      · exact .inr (.inl rfl)
      · exact .inl hx
    · exact .inr (.inr hl)
  · intro x hx
    rcases Nat.lt_succ_iff_lt_or_eq.1 hx with hx | rfl
    · exact (h x hx).imp_right .inr
    · exact .inr (.inl rfl)

lemma give (h : p.Full live) : (p.give o).Full fun x => live x ∧ x ≠ o := by
  intro x hx
  by_cases hxo : x = o
  · exact .inl (hxo ▸ mem_cons_self)
  · exact (h x hx).imp (mem_cons_of_mem _) fun hl => ⟨hl, hxo⟩

end Full

end Pool
end Unameit
