import Mathlib.Tactic.Common

/-!
# Loops — loops that may fail

A loop over a list is followed by saying what the state is after the elements that have been done
(`after`).  If every element takes the state one step further, unless it is a bad one and fails, the
loop ends in the state after the whole list or fails, according to whether there are bad elements.
Whether an element is bad may depend on the elements before it.
-/

namespace Unameit

open List

variable {ε σ ι : Type*}

lemma bind_eq_ok_iff {ε α β : Type} {x : Except ε α} {f : α → Except ε β} {b : β} :
    x >>= f = .ok b ↔ ∃ a, x = .ok a ∧ f a = .ok b := by
  cases x with
  | error e => simp [bind, Except.bind]
  | ok a => simp [bind, Except.bind]

lemma foldlM_after_prefix (step : σ → ι → Except ε σ) (l : List ι) (after : List ι → σ)
    (bad : List ι → ι → Prop) (Fault : ε → Prop)
    (hgood : ∀ done r rest, l = done ++ r :: rest → ¬ bad done r →
      step (after done) r = .ok (after (done ++ [r])))
    (hbad : ∀ done r rest, l = done ++ r :: rest → bad done r →
      ∃ e, Fault e ∧ step (after done) r = .error e) :
    (∀ done r rest, l = done ++ r :: rest → ¬ bad done r) ∧
        l.foldlM step (after []) = .ok (after l) ∨
      (∃ done r rest, l = done ++ r :: rest ∧ bad done r) ∧
        ∃ e, Fault e ∧ l.foldlM step (after []) = .error e := by
  -- induction on the part that is still to be done
  suffices hsuf : ∀ rest done, l = done ++ rest →
      (∀ more r rest', rest = more ++ r :: rest' → ¬ bad (done ++ more) r) ∧
          rest.foldlM step (after done) = .ok (after l) ∨
        (∃ more r rest', rest = more ++ r :: rest' ∧ bad (done ++ more) r) ∧
          ∃ e, Fault e ∧ rest.foldlM step (after done) = .error e from
    hsuf l [] rfl
  intro rest
  induction rest with
  | nil =>
    intro done hl
    rw [append_nil] at hl
    exact .inl ⟨by simp, by rw [hl]; rfl⟩
  | cons r rest ih =>
    intro done hl
    rw [foldlM_cons]
    by_cases hr : bad done r
    · obtain ⟨e, hfault, he⟩ := hbad done r rest hl hr
      exact .inr ⟨⟨[], r, rest, rfl, by simpa using hr⟩, e, hfault, by rw [he]; rfl⟩
    · have hstep := hgood done r rest hl hr
      rcases ih (done ++ [r]) (by simp [hl]) with
        ⟨hall, hok⟩ | ⟨⟨more, r', rest', hmore, hb⟩, e, hfault, he⟩
      · refine .inl ⟨?_, by rw [hstep]; exact hok⟩
        intro more r' rest' hmore
        cases more with
        | nil =>
          obtain ⟨rfl, -⟩ := cons.inj hmore
          simpa using hr
        | cons x more =>
          obtain ⟨rfl, hrest⟩ := cons.inj hmore
          simpa using hall more r' rest' hrest
      · refine .inr ⟨⟨r :: more, r', rest', ?_, by simpa using hb⟩, e, hfault, ?_⟩
        · rw [hmore, cons_append]
        · rw [hstep]
          exact he

/-- Such a loop fails if and only if there is a bad element. -/
theorem foldlM_error_iff_prefix (step : σ → ι → Except ε σ) (l : List ι) (after : List ι → σ)
    (bad : List ι → ι → Prop) (hgood : ∀ done r rest, l = done ++ r :: rest → ¬ bad done r →
      step (after done) r = .ok (after (done ++ [r])))
    (hbad : ∀ done r rest, l = done ++ r :: rest → bad done r →
      ∃ e, step (after done) r = .error e) :
    (∃ e, l.foldlM step (after []) = .error e) ↔
      ∃ done r rest, l = done ++ r :: rest ∧ bad done r := by
  rcases foldlM_after_prefix step l after bad (fun _ => True) hgood
    (fun done r rest hl hr => by simpa using hbad done r rest hl hr) with
    ⟨hall, hok⟩ | ⟨hex, e, -, he⟩
  · rw [hok]
    refine ⟨by simp, ?_⟩
    rintro ⟨done, r, rest, hl, hr⟩
    exact absurd hr (hall done r rest hl)
  · exact ⟨fun _ => hex, fun _ => ⟨e, he⟩⟩

/-- The form for elements that are bad whatever stands before them. -/
theorem foldlM_after (step : σ → ι → Except ε σ) (l : List ι) (after : List ι → σ) (bad : ι → Prop)
    (Fault : ε → Prop) (hgood : ∀ done r rest, l = done ++ r :: rest → ¬ bad r →
      step (after done) r = .ok (after (done ++ [r])))
    (hbad : ∀ done r rest, l = done ++ r :: rest → bad r →
      ∃ e, Fault e ∧ step (after done) r = .error e) :
    (∀ r ∈ l, ¬ bad r) ∧ l.foldlM step (after []) = .ok (after l) ∨
      (∃ r ∈ l, bad r) ∧ ∃ e, Fault e ∧ l.foldlM step (after []) = .error e := by
  rcases foldlM_after_prefix step l after (fun _ => bad) Fault hgood hbad with
    ⟨hall, hok⟩ | ⟨⟨done, r, rest, hl, hr⟩, herror⟩
  · refine .inl ⟨fun r hr => ?_, hok⟩
    obtain ⟨done, rest, hl⟩ := append_of_mem hr
    exact hall done r rest hl
  · exact .inr ⟨⟨r, by rw [hl]; simp, hr⟩, herror⟩

lemma foldlM_eq_after (step : σ → ι → Except ε σ) (l : List ι) (after : List ι → σ)
    (hstep : ∀ done r rest, l = done ++ r :: rest →
      step (after done) r = .ok (after (done ++ [r]))) :
    l.foldlM step (after []) = .ok (after l) := by
  rcases foldlM_after step l after (fun _ => False) (fun _ => False)
    (fun done r rest hl _ => hstep done r rest hl) (fun _ _ _ _ h => h.elim) with h | h
  · exact h.2
  · obtain ⟨⟨r, -, hr⟩, -⟩ := h
    exact hr.elim

/-- A loop over the multiples of `step`, with an invariant for each of them. -/
theorem foldlM_range' (f : σ → ℕ → Except ε σ) (I : ℕ → σ → Prop) (step count : ℕ) (s : σ)
    (hstep : ∀ k < count, ∀ s, I (step * k) s →
      ∃ s', f s (step * k) = .ok s' ∧ I (step * (k + 1)) s') (hs : I 0 s) :
    ∃ s', (List.range' 0 count step).foldlM f s = .ok s' ∧ I (step * count) s' := by
  suffices hsuf : ∀ rest k s, k + rest = count → I (step * k) s →
      ∃ s', (range' (step * k) rest step).foldlM f s = .ok s' ∧ I (step * count) s' from
    hsuf count 0 s (Nat.zero_add _) hs
  intro rest
  induction rest with
  | zero =>
    intro k s hk hs
    exact ⟨s, rfl, hk ▸ hs⟩
  | succ rest ih =>
    intro k s hk hs
    rcases hstep k (by omega) s hs with ⟨s₁, heq, hs₁⟩
    rw [range'_succ, foldlM_cons, heq]
    exact ih (k + 1) s₁ (by omega) hs₁

/-! ## Loops without a state -/

variable {f : ι → Except ε Unit} {l : List ι}

lemma exists_of_forM_error {e : ε} (h : l.forM f = .error e) : ∃ x ∈ l, f x = .error e := by
  induction l with
  | nil => cases h
  | cons x l ih =>
    rw [forM_eq_forM, forM_cons] at h
    cases hx : f x with
    | error e' =>
      rw [hx] at h
      cases h
      exact ⟨x, mem_cons_self, hx⟩
    | ok u =>
      rw [hx] at h
      obtain ⟨y, hy, hfy⟩ := ih h
      exact ⟨y, mem_cons_of_mem _ hy, hfy⟩

lemma forM_ok_iff : l.forM f = .ok () ↔ ∀ x ∈ l, f x = .ok () := by
  induction l with
  | nil => simp [forM_eq_forM, pure, Except.pure]
  | cons x l ih =>
    rw [forM_eq_forM, forM_cons, forall_mem_cons, ← ih]
    cases hx : f x with
    | error e => simp [bind, Except.bind]
    | ok u => simp [bind, Except.bind]

end Unameit
